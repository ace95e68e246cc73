import Mathlib.Algebra.BigOperators.Group.List.Basic
import SentryNative.Breadcrumb.RingBlocks
import SentryNative.Breadcrumb.Merge
import SentryNative.Value.MpackFormat

/-!
# Breadcrumbs after a crash

* `crashed_files`: what the two files hold, whichever write the crash cut;
* `readBreadcrumbRingFile_torn`: what the daemon reads of one of them;
* `breadcrumbs_survive`: when the last `max_breadcrumbs` come back in the order they were
  added. Timestamps are compared as text, so a crumb of the older block can go after
  the first one of the newer.
-/

namespace SentryNative.Breadcrumb

open CLib Msgpack

section Blocks

variable {max : Nat} {vs : List Value} {torn : Bool}

/-- The number of the newest block that has a breadcrumb. -/
def newestBlock (max : Nat) (vs : List Value) : Nat := (vs.length - 1) / max

/-- The breadcrumbs of the newest block. -/
def newer (max : Nat) (vs : List Value) : List Value := vs.drop (newestBlock max vs * max)

/-- The block before; there is none when the write that was cut had started its file over. -/
def older (max : Nat) (vs : List Value) (torn : Bool) : List Value :=
  if newestBlock max vs = 0 ∨ (torn = true ∧ vs.length % max = 0) then []
  else (vs.drop ((newestBlock max vs - 1) * max)).take max

theorem newestBlock_le (max : Nat) (vs : List Value) : newestBlock max vs * max ≤ vs.length := by
  have hle := Nat.div_mul_le_self (vs.length - 1) max
  unfold newestBlock
  omega

theorem length_newer (hm : 0 < max) (vs : List Value) : (newer max vs).length ≤ max := by
  have hlt : vs.length - 1 < (vs.length - 1) / max * max + max := Nat.lt_div_mul_add hm
  unfold newer newestBlock
  rw [List.length_drop]
  omega

theorem newer_eq_nil (max : Nat) (vs : List Value) : newer max vs = [] ↔ vs = [] := by
  have hle := Nat.div_mul_le_self (vs.length - 1) max
  constructor
  · intro h
    unfold newer newestBlock at h
    rw [List.drop_eq_nil_iff] at h
    apply List.length_eq_zero_iff.1
    omega
  · rintro rfl
    simp [newer]

/-- The two blocks stand next to each other in what was added. -/
theorem drop_pred_block (hq : newestBlock max vs ≠ 0) :
    vs.drop ((newestBlock max vs - 1) * max) = (vs.drop ((newestBlock max vs - 1) * max)).take max ++ newer max vs := by
  obtain ⟨q, hq⟩ := Nat.exists_eq_add_one_of_ne_zero hq
  have hnewer : newer max vs = (vs.drop (q * max)).drop max := by
    unfold newer
    rw [hq, Nat.add_mul, List.drop_drop, Nat.one_mul]
  rw [hnewer, hq, Nat.add_sub_cancel, List.take_append_drop]

theorem length_older (max : Nat) (vs : List Value) (torn : Bool) :
    older max vs torn = [] ∨ (older max vs torn).length = max := by
  unfold older
  split
  · exact Or.inl rfl
  · rename_i h
    rw [not_or] at h
    obtain ⟨q, hq⟩ := Nat.exists_eq_add_one_of_ne_zero h.1
    have hle := newestBlock_le max vs
    rw [hq, Nat.add_mul] at hle
    right
    rw [List.length_take, List.length_drop, hq, Nat.add_sub_cancel]
    omega

theorem older_append_newer (max : Nat) (vs : List Value) (torn : Bool) :
    older max vs torn ++ newer max vs <:+ vs := by
  unfold older
  split
  · exact List.drop_suffix _ _
  · rename_i h
    rw [not_or] at h
    rw [← drop_pred_block h.1]
    exact List.drop_suffix _ _

/-- The last `max` are the newest block and as many of the older one as there is room for. -/
theorem last_eq (hm : 0 < max) (vs : List Value) (torn : Bool) :
    vs.drop (vs.length - max) = (older max vs torn).drop (newer max vs).length ++ newer max vs := by
  have hlen : (newer max vs).length = vs.length - newestBlock max vs * max := by
    unfold newer
    rw [List.length_drop]
  have hle := newestBlock_le max vs
  unfold older
  split
  · rename_i h
    rw [List.drop_nil, List.nil_append]
    obtain hzero | ⟨-, hmod⟩ := h
    · have hshort := length_newer hm vs
      unfold newer at *
      rw [hzero, Nat.zero_mul, List.drop_zero] at *
      rw [Nat.sub_eq_zero_of_le hshort, List.drop_zero]
    · -- the newest block is full
      unfold newer
      congr 1
      by_cases hpos : 0 < vs.length
      · have hdiv := pred_div_first hm hmod hpos
        have hall := Nat.div_mul_cancel (Nat.dvd_of_mod_eq_zero hmod)
        unfold newestBlock
        rw [← hdiv, Nat.add_mul] at hall
        omega
      · omega
  · rename_i h
    rw [not_or] at h
    have hshort := length_newer hm vs
    have hblocks := congrArg (List.drop (newer max vs).length) (drop_pred_block h.1)
    obtain ⟨q, hq⟩ := Nat.exists_eq_add_one_of_ne_zero h.1
    rw [hq, Nat.add_mul] at hle hlen
    rw [hq, Nat.add_sub_cancel] at hblocks ⊢
    have hfull : (newer max vs).length ≤ ((vs.drop (q * max)).take max).length := by
      rw [List.length_take, List.length_drop]
      omega
    rw [← List.drop_append_of_le_length hfull, ← hblocks, List.drop_drop]
    congr 1
    omega

end Blocks

section Files

variable {m : Mpack} {max : Nat} {vs : List Value} {torn : Option (Value × Nat)}

/-- What can stand behind the whole encodings of a file. -/
def Tail (m : Mpack) (tail : Bytes) : Prop := tail = [] ∨ m.parse tail = none

/-- The crash cut the write of a breadcrumb. -/
def Cut (m : Mpack) (torn : Option (Value × Nat)) : Prop :=
  ∀ v written, torn = some (v, written) → Encodable v ∧ written < (toMsgpack m v).length

/-- The file of the newest block and the other one, after any crash. -/
theorem crashed_files (hl : m.Lawful) (hm : 0 < max) (hm' : max < 2 ^ 32) (hn : Counts max (vs.length + 1))
    (hcut : Cut m torn) : ∃ t t', Tail m t ∧ Tail m t' ∧
      (crashed m max vs torn).file (newestBlock max vs) = ((newer max vs).map (toMsgpack m)).flatten ++ t ∧
      (crashed m max vs torn).file (newestBlock max vs + 1) =
        ((older max vs torn.isSome).map (toMsgpack m)).flatten ++ t' := by
  have hlen : (vs.map (toMsgpack m)).length = vs.length := List.length_map _
  have hblocks : Blocks max (vs.map (toMsgpack m)) (addAll max (vs.map (toMsgpack m))) := by
    apply addAll_blocks hm hm'
    rw [hlen]
    exact hn.of_le (Nat.le_succ _)
  have hnewest := hblocks.newest
  have hbefore := hblocks.before
  rw [hlen, ← List.map_drop] at hnewest
  rw [hlen, ← List.map_drop, ← List.map_take] at hbefore
  have hempty : Tail m [] := Or.inl rfl
  cases torn with
  | none =>
    refine ⟨[], [], hempty, hempty, ?_, ?_⟩
    · rw [List.append_nil]
      exact hnewest
    · rw [List.append_nil]
      simp only [crashed, Option.isSome_none, older, newestBlock, Bool.false_eq_true, false_and, or_false]
      rw [hbefore]
      split <;> rfl
  | some p =>
    obtain ⟨v, written⟩ := p
    obtain ⟨henc, hwritten⟩ := hcut v written rfl
    have htail : Tail m ((toMsgpack m v).take written) := Or.inr (parse_take_toMsgpack hl henc hwritten)
    have hcount := hblocks.count
    rw [hlen] at hcount
    obtain ⟨-, hfile, hother⟩ := addBreadcrumb_files hm hm' hn hcount (toMsgpack m v) written
    simp only [crashed, Option.isSome_some]
    by_cases hfirst : vs.length % max = 0
    · have holder : older max vs true = [] := by simp [older, hfirst]
      rw [if_pos hfirst] at hfile
      by_cases hpos : 0 < vs.length
      · -- the other file is started over
        have hdiv : newestBlock max vs + 1 = vs.length / max := pred_div_first hm hfirst hpos
        refine ⟨[], _, hempty, htail, ?_, ?_⟩
        · rw [← hdiv, Rings.file_add_two, Rings.file_add_two] at hother
          rw [hother, List.append_nil]
          exact hnewest
        · rw [holder, hdiv, hfile]
          rfl
      · have hnil : vs = [] := List.length_eq_zero_iff.1 (by omega)
        subst hnil
        refine ⟨_, [], htail, hempty, ?_, ?_⟩
        · simpa [newestBlock, newer] using hfile
        · simpa [newestBlock, older] using hother.trans hbefore
    · have hdiv : newestBlock max vs = vs.length / max := pred_div hm hfirst
      refine ⟨_, [], htail, hempty, ?_, ?_⟩
      · rw [hdiv, hfile, if_neg hfirst, ← hdiv]
        exact congrArg (· ++ _) hnewest
      · rw [hdiv, hother, ← hdiv, List.append_nil]
        simp only [older, hfirst, and_false, or_false]
        rw [newestBlock, hbefore]
        split <;> rfl

/-- What is decoded of a file: nothing at all when one breadcrumb is nested too deep. -/
def decoded (vs : List Value) : List Value :=
  if ∀ v ∈ vs, v.height ≤ maxDepth then vs.map Value.retype else []

theorem length_decoded (vs : List Value) : (decoded vs).length ≤ vs.length := by
  unfold decoded
  split <;> simp

theorem readBreadcrumbRingFile_torn (hl : m.Lawful) (henc : ∀ v ∈ vs, Encodable v) {tail : Bytes}
    (htail : Tail m tail) :
    readBreadcrumbRingFile m ((vs.map (toMsgpack m)).flatten ++ tail) = listOrNull (decoded vs) := by
  have hrounds : vs.length ≤ ((vs.map (toMsgpack m)).flatten ++ tail).length := by
    have hpos : ∀ e ∈ vs.map (toMsgpack m), 1 ≤ e.length := by
      intro e he
      obtain ⟨v, hv, rfl⟩ := List.mem_map.1 he
      exact toMsgpack_pos hl (henc v hv)
    have hsum := List.length_le_sum_of_one_le ((vs.map (toMsgpack m)).map List.length) (by simpa using hpos)
    rw [List.length_append, List.length_flatten]
    rw [List.length_map, List.length_map] at hsum
    omega
  have hloop := streamLoop_whole hl henc htail (Nat.lt_succ_of_le hrounds) []
  have hlist : listOrNull (decoded vs) =
      if ∀ v ∈ vs, v.height ≤ maxDepth then listOrNull ([] ++ vs.map Value.retype) else .null := by
    unfold decoded
    split <;> rfl
  rw [← hlist] at hloop
  unfold readBreadcrumbRingFile fromMsgpackStream
  split
  · rename_i hnil
    rw [hnil] at hloop
    simpa [streamLoop, listOrNull] using hloop
  · change (streamLoop m _ _ (listOrNull [])).getD .null = _
    rw [hloop]
    rfl

end Files

section Merge

variable {as bs : List Value}

def breadcrumbLe (a b : Value) : Bool := cmpBreadcrumb a b ≤ 0

theorem length_skipOldest {α : Type} (le : α → α → Bool) (j : Nat) (as bs : List α) :
    (skipOldest le j as bs).1.length + (skipOldest le j as bs).2.length = as.length + bs.length - j := by
  induction j generalizing as bs with
  | zero => rfl
  | succ j ih =>
    cases as with
    | nil => simp [skipOldest]
    | cons a as =>
      cases bs with
      | nil => simp [skipOldest]
      | cons b bs =>
        simp only [skipOldest]
        split
        · rw [ih]
          simp only [List.length_cons]
          omega
        · rw [ih]
          simp only [List.length_cons]
          omega

theorem skipMerge_ne_nil {α : Type} (le : α → α → Bool) {j : Nat} {as bs : List α} (h : j < as.length + bs.length) :
    skipMerge le j as bs ≠ [] := by
  intro hnil
  have hlen := length_skipOldest le j as bs
  have hsum := congrArg List.length hnil
  unfold skipMerge at hsum
  rw [List.length_merge] at hsum
  simp only [List.length_nil] at hsum
  omega

theorem mergeBreadcrumbs_listOrNull {max : Nat} (ha : as.length ≤ max) (hb : bs.length ≤ max) :
    mergeBreadcrumbs (listOrNull as) (listOrNull bs) max =
      listOrNull (skipMerge breadcrumbLe (as.length + bs.length - max) as bs) := by
  have hitems : ∀ vs, items (listOrNull vs) = vs := by
    intro vs
    cases vs <;> rfl
  unfold mergeBreadcrumbs
  rw [hitems, hitems]
  cases as with
  | nil =>
    have hnone : ([] : List Value).length + bs.length - max = 0 := by
      rw [List.length_nil]
      omega
    rw [hnone]
    cases bs <;> simp [skipMerge, skipOldest, listOrNull]
  | cons a as =>
    cases bs with
    | nil =>
      have hnone : (a :: as).length + ([] : List Value).length - max = 0 := by
        rw [List.length_nil]
        omega
      rw [hnone]
      simp [skipMerge, skipOldest]
    | cons b bs =>
      have hroom : (a :: as).length + (b :: bs).length - max < (a :: as).length + (b :: bs).length := by
        rw [List.length_cons] at ha
        rw [List.length_cons]
        omega
      have hne := skipMerge_ne_nil breadcrumbLe hroom
      have hlist : listOrNull (skipMerge breadcrumbLe ((a :: as).length + (b :: bs).length - max) (a :: as) (b :: bs)) =
          .list (skipMerge breadcrumbLe ((a :: as).length + (b :: bs).length - max) (a :: as) (b :: bs)) := if_neg hne
      rw [hlist]
      rfl

end Merge

section Order

/-- The comparison of two breadcrumbs that have a timestamp. -/
theorem cmpBreadcrumb_stamped {a b : Value} (ha : a.getByKey timestampKey ≠ .null)
    (hb : b.getByKey timestampKey ≠ .null) :
    cmpBreadcrumb a b = strcmp (a.getByKey timestampKey).asString (b.getByKey timestampKey).asString := by
  unfold cmpBreadcrumb
  split
  · contradiction
  · contradiction
  · rfl

theorem cmpBreadcrumb_retype (a b : Value) : cmpBreadcrumb a.retype b.retype = cmpBreadcrumb a b := by
  by_cases ha : a.getByKey timestampKey = .null
  · unfold cmpBreadcrumb
    rw [Value.getByKey_retype, ha]
    rfl
  have ha' : a.retype.getByKey timestampKey ≠ .null := by
    rw [Value.getByKey_retype]
    exact (Value.retype_eq_null _).not.2 ha
  by_cases hb : b.getByKey timestampKey = .null
  · have hb' : b.retype.getByKey timestampKey = .null := by
      rw [Value.getByKey_retype, hb]
      rfl
    unfold cmpBreadcrumb
    rw [hb, hb']
    split
    · contradiction
    · rfl
    · contradiction
  · have hb' : b.retype.getByKey timestampKey ≠ .null := by
      rw [Value.getByKey_retype]
      exact (Value.retype_eq_null _).not.2 hb
    rw [cmpBreadcrumb_stamped ha hb, cmpBreadcrumb_stamped ha' hb', Value.getByKey_retype, Value.getByKey_retype,
      Value.asString_retype, Value.asString_retype]

/-- The merge takes a breadcrumb of the older block before one of the newest block. On a tie it
takes the one of the first file. -/
def goesBefore (newest : Nat) (o n : Value) : Prop :=
  if newest % 2 = 0 then 0 < cmpBreadcrumb n o else cmpBreadcrumb o n ≤ 0

/-- The comparison with the older block on the left. -/
def order (newest : Nat) : Value → Value → Bool :=
  if newest % 2 = 0 then flipped breadcrumbLe else breadcrumbLe

theorem order_retype (q : Nat) (o n : Value) : order q o.retype n.retype = true ↔ goesBefore q o n := by
  unfold order goesBefore
  split
  · simp [flipped, breadcrumbLe, cmpBreadcrumb_retype]
  · simp [breadcrumbLe, cmpBreadcrumb_retype]

/-- The breadcrumbs of the last two blocks come back in order. A block with a breadcrumb that is
nested too deep is lost; for the older one this does no harm when the newest is full. -/
structure Survives (max : Nat) (vs : List Value) (torn : Bool) : Prop where
  shallow : ∀ v ∈ newer max vs, v.height ≤ maxDepth
  before : (∀ v ∈ older max vs torn, v.height ≤ maxDepth) →
    ∀ o ∈ older max vs torn, ∀ n ∈ (newer max vs).head?, goesBefore (newestBlock max vs) o n
  full : (∃ v ∈ older max vs torn, maxDepth < v.height) → (newer max vs).length = max

/-- What the daemon makes of the two blocks. -/
def recovered (max : Nat) (vs : List Value) (torn : Bool) : List Value :=
  skipMerge (order (newestBlock max vs)) ((decoded (older max vs torn)).length + (decoded (newer max vs)).length - max)
    (decoded (older max vs torn)) (decoded (newer max vs))

variable {max : Nat} {vs : List Value} {torn : Bool}

theorem decoded_shallow (h : ∀ v ∈ vs, v.height ≤ maxDepth) : decoded vs = vs.map Value.retype := if_pos h

theorem decoded_deep (h : ∃ v ∈ vs, maxDepth < v.height) : decoded vs = [] := by
  apply if_neg
  intro hall
  obtain ⟨v, hv, hdeep⟩ := h
  exact absurd (hall v hv) (by omega)

theorem mem_decoded {v : Value} (h : v ∈ decoded vs) : v ∈ vs.map Value.retype := by
  unfold decoded at h
  split at h
  · exact h
  · cases h

theorem recovered_deep (hm : 0 < max) (hshallow : ∀ v ∈ newer max vs, v.height ≤ maxDepth)
    (hdeep : ∃ v ∈ older max vs torn, maxDepth < v.height) :
    recovered max vs torn = (newer max vs).map Value.retype := by
  have hshort := length_newer hm vs
  have hnone : (([] : List Value).length + ((newer max vs).map Value.retype).length - max) = 0 := by
    rw [List.length_map, List.length_nil]
    omega
  unfold recovered
  rw [decoded_shallow hshallow, decoded_deep hdeep, hnone]
  simp [skipMerge, skipOldest]

/-- As many of the older block are skipped as the newest one has. -/
theorem skipped (max : Nat) (vs : List Value) (torn : Bool) (j : Nat) :
    ((older max vs torn).map Value.retype).drop (((older max vs torn).map Value.retype).length + j - max) =
      ((older max vs torn).drop j).map Value.retype := by
  rw [List.length_map, List.map_drop]
  obtain hnil | hlen := length_older max vs torn
  · rw [hnil]
    simp
  · rw [hlen, Nat.add_sub_cancel_left]

theorem recovered_eq (hm : 0 < max) (h : Survives max vs torn) :
    recovered max vs torn = (vs.drop (vs.length - max)).map Value.retype := by
  rw [last_eq hm vs torn, List.map_append]
  by_cases hdeep : ∃ v ∈ older max vs torn, maxDepth < v.height
  · have hnone : (older max vs torn).drop (newer max vs).length = [] := by
      rw [h.full hdeep, List.drop_eq_nil_iff]
      obtain hnil | hlen := length_older max vs torn
      · simp [hnil]
      · omega
    rw [recovered_deep hm h.shallow hdeep, hnone]
    rfl
  · have hshallow : ∀ v ∈ older max vs torn, v.height ≤ maxDepth := by
      intro v hv
      by_contra hv'
      exact hdeep ⟨v, hv, by omega⟩
    have hbefore := h.before hshallow
    have hshort := length_newer hm vs
    unfold recovered
    rw [decoded_shallow h.shallow, decoded_shallow hshallow]
    cases hnewer : newer max vs with
    | nil =>
      have hvs := (newer_eq_nil max vs).1 hnewer
      subst hvs
      simp [older, newestBlock, skipMerge, skipOldest]
    | cons n ns =>
      rw [hnewer] at hbefore hshort
      rw [List.map_cons, skipMerge_older]
      · rw [skipped, List.length_cons, List.length_map, List.length_cons]
      · intro o ho
        obtain ⟨o, hmem, rfl⟩ := List.mem_map.1 ho
        exact (order_retype _ o n).2 (hbefore o hmem n rfl)
      · simp only [List.length_cons, List.length_map] at hshort ⊢
        omega

/-- The converse, for breadcrumbs that can be told apart. -/
theorem survives_of_recovered (hm : 0 < max) (hnodup : (vs.map Value.retype).Nodup)
    (h : recovered max vs torn = (vs.drop (vs.length - max)).map Value.retype) : Survives max vs torn := by
  rw [last_eq hm vs torn, List.map_append] at h
  have hdistinct : ((older max vs torn).map Value.retype ++ (newer max vs).map Value.retype).Nodup := by
    rw [← List.map_append]
    exact hnodup.sublist ((older_append_newer max vs torn).sublist.map _)
  have hshallow : ∀ v ∈ newer max vs, v.height ≤ maxDepth := by
    by_contra hne
    have hdeep : ∃ v ∈ newer max vs, maxDepth < v.height := by
      push Not at hne
      exact hne
    obtain ⟨v, hv, hheight⟩ := hdeep
    have hmem : v.retype ∈ recovered max vs torn := by
      rw [h]
      exact List.mem_append_right _ (List.mem_map_of_mem hv)
    unfold recovered at hmem
    rw [decoded_deep ⟨v, hv, hheight⟩] at hmem
    obtain hmem | hmem := mem_skipMerge hmem
    · exact (List.nodup_append.1 hdistinct).2.2 _ (mem_decoded hmem) _ (List.mem_map_of_mem hv) rfl
    · cases hmem
  refine ⟨hshallow, ?_, ?_⟩
  · intro hold o ho n hn
    unfold recovered at h
    rw [decoded_shallow hshallow, decoded_shallow hold] at h
    cases hnewer : newer max vs with
    | nil =>
      rw [hnewer] at hn
      cases hn
    | cons n' ns =>
      rw [hnewer] at hn h hdistinct
      obtain rfl : n' = n := by simpa using hn
      have hlen : (n' :: ns).length = ((n' :: ns).map Value.retype).length := (List.length_map _).symm
      rw [← skipped, hlen] at h
      have hall := older_of_skipMerge hdistinct h
      exact (order_retype _ o n').1 (hall _ (List.mem_map_of_mem ho))
  · intro hdeep
    rw [recovered_deep hm hshallow hdeep] at h
    have hlen := congrArg List.length h
    rw [List.length_append, List.length_map, List.length_map, List.length_drop] at hlen
    have hshort := length_newer hm vs
    obtain hnil | hfull := length_older max vs torn
    · rw [hnil] at hdeep
      simp at hdeep
    · omega

end Order

section Clock

variable {t u : UInt64} {o n : Value} {q : Nat}

/-- The breadcrumb has the text of a reading of the clock. -/
def Stamped (t : UInt64) (v : Value) : Prop :=
  ∃ iso, usecTimeToIso8601 t = some iso ∧ v.getByKey timestampKey = .string iso

/-- What is behind the seconds. -/
def fraction (t : UInt64) : Bytes :=
  (if t.toNat % 1000000 ≠ 0 then 46 :: printPadded 6 (t.toNat % 1000000) else []) ++ [90]

theorem Stamped.asString {v : Value} (h : Stamped t v) : v.getByKey timestampKey ≠ .null ∧
    (v.getByKey timestampKey).asString = strftimeSeconds (gmtime (t.toNat / 1000000)) ++ fraction t := by
  obtain ⟨iso, hiso, hkey⟩ := h
  rw [hkey]
  refine ⟨by simp, ?_⟩
  unfold usecTimeToIso8601 at hiso
  simp only at hiso
  split at hiso
  · cases hiso
  · have htext := Option.some.inj hiso
    have hfraction : 0 ∉ fraction t := by
      unfold fraction
      split <;> simp [zero_not_mem_printPadded]
    have hfree := zero_not_mem_strftimeSeconds (gmtime (t.toNat / 1000000))
    rw [List.append_assoc] at htext
    rw [← htext]
    apply cstr_of_not_mem
    rw [List.mem_append]
    exact not_or.2 ⟨hfree, hfraction⟩

/-- Within one second only what is behind the seconds is compared. -/
theorem cmpBreadcrumb_same_second (ho : Stamped t o) (hn : Stamped u n)
    (hsec : t.toNat / 1000000 = u.toNat / 1000000) : cmpBreadcrumb o n = strcmp (fraction t) (fraction u) := by
  obtain ⟨ho, hotext⟩ := ho.asString
  obtain ⟨hn, hntext⟩ := hn.asString
  rw [hsec] at hotext
  rw [← strcmp_append (strftimeSeconds (gmtime (u.toNat / 1000000))), ← hotext, ← hntext]
  exact cmpBreadcrumb_stamped ho hn

/-- The text of a whole second goes after every other text of that second. -/
theorem not_goesBefore_whole_second (ho : Stamped t o) (hn : Stamped u n)
    (hsec : t.toNat / 1000000 = u.toNat / 1000000) (hwhole : t.toNat % 1000000 = 0)
    (hlater : u.toNat % 1000000 ≠ 0) : ¬goesBefore q o n := by
  have hot : fraction t = [90] := by simp [fraction, hwhole]
  have hnt : fraction u = 46 :: (printPadded 6 (u.toNat % 1000000) ++ [90]) := by simp [fraction, hlater]
  have hon := cmpBreadcrumb_same_second ho hn hsec
  have hno := cmpBreadcrumb_same_second hn ho hsec.symm
  rw [hot, hnt] at hon hno
  unfold goesBefore
  split
  · rw [hno]
    simp [strcmp]
  · rw [hon]
    simp [strcmp]

/-- Of two with the same text the one in the first file is taken first. -/
theorem goesBefore_tie (ho : Stamped t o) (hn : Stamped t n) : goesBefore q o n ↔ q % 2 ≠ 0 := by
  have hon := cmpBreadcrumb_same_second ho hn rfl
  have hno := cmpBreadcrumb_same_second hn ho rfl
  rw [strcmp_self] at hon hno
  unfold goesBefore
  split
  · rename_i heven
    rw [hno]
    simp [heven]
  · rename_i hodd
    rw [hon]
    simpa using hodd

end Clock

section Daemon

variable {m : Mpack} {vs : List Value} {torn : Option (Value × Nat)}

theorem merged_crashed (hl : m.Lawful) {max : Nat} (hm : 0 < max) (hm' : max < 2 ^ 32)
    (hn : Counts max (vs.length + 1)) (henc : ∀ v ∈ vs, Encodable v) (hcut : Cut m torn) :
    mergeBreadcrumbs (readBreadcrumbRingFile m (crashed m max vs torn).file1)
        (readBreadcrumbRingFile m (crashed m max vs torn).file2) max =
      listOrNull (recovered max vs torn.isSome) := by
  obtain ⟨t, t', ht, ht', hfile, hother⟩ := crashed_files hl hm hm' hn hcut
  have hsuffix := older_append_newer max vs torn.isSome
  have hold : ∀ v ∈ older max vs torn.isSome, Encodable v := fun v hv =>
    henc v (hsuffix.subset (List.mem_append_left _ hv))
  have hnew : ∀ v ∈ newer max vs, Encodable v := fun v hv => henc v (hsuffix.subset (List.mem_append_right _ hv))
  have hshort : (decoded (newer max vs)).length ≤ max := (length_decoded _).trans (length_newer hm vs)
  have hshort' : (decoded (older max vs torn.isSome)).length ≤ max := by
    apply (length_decoded _).trans
    obtain hnil | hlen := length_older max vs torn.isSome
    · simp [hnil]
    · omega
  have hread := readBreadcrumbRingFile_torn hl hnew ht
  have hread' := readBreadcrumbRingFile_torn hl hold ht'
  rw [← hfile] at hread
  rw [← hother] at hread'
  unfold recovered order
  by_cases heven : newestBlock max vs % 2 = 0
  · have hodd : ¬(newestBlock max vs + 1) % 2 = 0 := by omega
    rw [Rings.file, if_pos heven] at hread
    rw [Rings.file, if_neg hodd] at hread'
    rw [hread, hread', mergeBreadcrumbs_listOrNull hshort hshort', if_pos heven, skipMerge_flip,
      Nat.add_comm (decoded (newer max vs)).length]
  · have hodd : (newestBlock max vs + 1) % 2 = 0 := by omega
    rw [Rings.file, if_neg heven] at hread
    rw [Rings.file, if_pos hodd] at hread'
    rw [hread, hread', mergeBreadcrumbs_listOrNull hshort' hshort, if_neg heven]

/-- The breadcrumbs of the event that is sent: those it came with when none are read. -/
theorem getByKey_apply (hl : m.Lawful) {max : UInt32} (hm : 0 < max.toNat) (hn : Counts max.toNat (vs.length + 1))
    (henc : ∀ v ∈ vs, Encodable v) (hcut : Cut m torn) (ps : List (Bytes × Value)) :
    (applyBreadcrumbsFromRingFiles m (.object ps) (crashed m max.toNat vs torn) (some max)).getByKey breadcrumbsKey =
      if recovered max.toNat vs torn.isSome = [] then Value.lookup breadcrumbsKey ps
      else .list (recovered max.toNat vs torn.isSome) := by
  have hne : some max ≠ some 0 := by
    rintro ⟨⟩
    simp at hm
  unfold applyBreadcrumbsFromRingFiles
  rw [if_neg hne]
  simp only [merged_crashed hl hm max.toNat_lt hn henc hcut]
  by_cases hnil : recovered max.toNat vs torn.isSome = []
  · rw [listOrNull, if_pos hnil, if_pos hnil]
    rfl
  · rw [listOrNull, if_neg hnil, if_neg hnil]
    exact Value.lookup_insert _ _ _

theorem recovered_empty {max : Nat} {torn : Bool} : recovered max [] torn = [] := by
  simp [recovered, older, newer, newestBlock, decoded, skipMerge, skipOldest]

theorem last_ne_nil {max : Nat} (hm : 0 < max) (hne : vs ≠ []) :
    (vs.drop (vs.length - max)).map Value.retype ≠ [] := by
  have hpos := List.length_pos_iff.2 hne
  intro hnil
  have hlen := congrArg List.length hnil
  simp only [List.length_map, List.length_drop, List.length_nil] at hlen
  omega

theorem apply_survives (hl : m.Lawful) {max : UInt32} (hm : 0 < max.toNat) (hn : Counts max.toNat (vs.length + 1))
    (henc : ∀ v ∈ vs, Encodable v) (hcut : Cut m torn) {ps : List (Bytes × Value)}
    (h : Survives max.toNat vs torn.isSome) (hnone : vs = [] → Value.lookup breadcrumbsKey ps = .null) :
    (applyBreadcrumbsFromRingFiles m (.object ps) (crashed m max.toNat vs torn) (some max)).getByKey breadcrumbsKey =
      listOrNull ((vs.drop (vs.length - max.toNat)).map Value.retype) := by
  rw [getByKey_apply hl hm hn henc hcut, recovered_eq hm h]
  by_cases hvs : vs = []
  · rw [hnone hvs, hvs]
    rfl
  · rw [listOrNull, if_neg (last_ne_nil hm hvs), if_neg (last_ne_nil hm hvs)]

theorem survives_of_apply (hl : m.Lawful) {max : UInt32} (hm : 0 < max.toNat) (hn : Counts max.toNat (vs.length + 1))
    (henc : ∀ v ∈ vs, Encodable v) (hcut : Cut m torn) {ps : List (Bytes × Value)}
    (hnodup : (vs.map Value.retype).Nodup) (hnone : Value.lookup breadcrumbsKey ps = .null)
    (h : (applyBreadcrumbsFromRingFiles m (.object ps) (crashed m max.toNat vs torn) (some max)).getByKey
        breadcrumbsKey = listOrNull ((vs.drop (vs.length - max.toNat)).map Value.retype)) :
    Survives max.toNat vs torn.isSome := by
  apply survives_of_recovered hm hnodup
  rw [getByKey_apply hl hm hn henc hcut, hnone] at h
  by_cases hvs : vs = []
  · rw [hvs, recovered_empty, List.drop_nil]
    rfl
  · rw [listOrNull, if_neg (last_ne_nil hm hvs)] at h
    split at h
    · cases h
    · exact Value.list.inj h

/-- The daemon gives the event exactly the last `max_breadcrumbs` of those that were written
completely, in the order they were added, when the merge puts the older block before the newest and
neither is nested too deep; and for an event without breadcrumbs of its own only then. -/
theorem breadcrumbs_survive (m : Mpack) (hl : m.Lawful) (max : UInt32) (hm : 1 ≤ max.toNat) (vs : List Value)
    (torn : Option (Value × Nat)) (hn : Counts max.toNat (vs.length + 1)) (henc : ∀ v ∈ vs, Encodable v)
    (hcut : Cut m torn) (ps : List (Bytes × Value)) :
    (Survives max.toNat vs torn.isSome → (vs = [] → Value.lookup breadcrumbsKey ps = .null) →
      (applyBreadcrumbsFromRingFiles m (.object ps) (crashed m max.toNat vs torn) (some max)).getByKey breadcrumbsKey =
        listOrNull ((vs.drop (vs.length - max.toNat)).map Value.retype)) ∧
      ((vs.map Value.retype).Nodup → Value.lookup breadcrumbsKey ps = .null →
        (applyBreadcrumbsFromRingFiles m (.object ps) (crashed m max.toNat vs torn) (some max)).getByKey
            breadcrumbsKey = listOrNull ((vs.drop (vs.length - max.toNat)).map Value.retype) →
          Survives max.toNat vs torn.isSome) := by
  constructor
  · exact apply_survives hl hm hn henc hcut
  · exact survives_of_apply hl hm hn henc hcut

/-- A breadcrumb with a timestamp. -/
def crumb (iso : Bytes) : Value := .object [(timestampKey, .string iso)]

theorem encodable_crumb {iso : Bytes} (h : iso.length < 2 ^ 32) : Encodable (crumb iso) := by
  have hkey : (timestampKey : Bytes).length < 2 ^ 32 ∧ 0 ∉ timestampKey := by decide
  refine .object (by simp) ⟨?_, by simp⟩ ?_ ?_
  · intro p hp
    rw [List.mem_singleton.1 hp]
    exact hkey.2
  · intro p hp
    rw [List.mem_singleton.1 hp]
    exact hkey.1
  · intro p hp
    rw [List.mem_singleton.1 hp]
    exact .string h

def onTheSecond : Value := crumb (ascii "2023-11-14T22:13:20Z")

def oneLater : Value := crumb (ascii "2023-11-14T22:13:20.000001Z")

def twoLater : Value := crumb (ascii "2023-11-14T22:13:20.000002Z")

def threeLater : Value := crumb (ascii "2023-11-14T22:13:20.000003Z")

theorem encodable_moments : ∀ v ∈ [onTheSecond, oneLater, twoLater, threeLater], Encodable v := by
  intro v hv
  simp only [List.mem_cons, List.not_mem_nil, or_false] at hv
  obtain rfl | rfl | rfl | rfl := hv
  all_goals exact encodable_crumb (by decide)

/-- Three breadcrumbs in rings of two, and a fourth that was cut. -/
theorem breadcrumbs_survive_cut :
    (applyBreadcrumbsFromRingFiles Format.mpack (.object [])
        (crashed Format.mpack 2 [oneLater, twoLater, threeLater] (some (onTheSecond, 3))) (some 2)).getByKey
      breadcrumbsKey = .list [twoLater, threeLater] := by
  have hcut : Cut Format.mpack (some (onTheSecond, 3)) := by
    rintro v written ⟨⟩
    exact ⟨encodable_moments _ (by simp), by decide +kernel⟩
  have henc : ∀ v ∈ [oneLater, twoLater, threeLater], Encodable v := fun v hv =>
    encodable_moments v (List.mem_cons_of_mem _ hv)
  have hsurvives : Survives 2 [oneLater, twoLater, threeLater] true := by
    refine ⟨by decide, ?_, ?_⟩
    · intro _ o ho n hn
      cases hn
      obtain rfl | rfl : o = oneLater ∨ o = twoLater := by simpa [older, newestBlock] using ho
      · exact (by decide : cmpBreadcrumb oneLater threeLater ≤ 0)
      · exact (by decide : cmpBreadcrumb twoLater threeLater ≤ 0)
    · intro hdeep
      exact absurd hdeep (by decide)
  exact (breadcrumbs_survive Format.mpack Format.mpack_lawful 2 (by decide) _ _ (Or.inl (by decide)) henc hcut []).1
    hsurvives (by simp)

/-- With one breadcrumb kept, the newest is lost when the one before it came on the very second. -/
theorem newest_lost_to_whole_second :
    Stamped 1700000000000000 onTheSecond ∧ Stamped 1700000000000001 oneLater ∧
      (applyBreadcrumbsFromRingFiles Format.mpack (.object [])
          (crashed Format.mpack 1 [onTheSecond, oneLater] none) (some 1)).getByKey breadcrumbsKey ≠
        .list [oneLater] := by
  have ho : Stamped 1700000000000000 onTheSecond := ⟨_, by decide +kernel, rfl⟩
  have hn : Stamped 1700000000000001 oneLater := ⟨_, by decide +kernel, rfl⟩
  refine ⟨ho, hn, ?_⟩
  intro h
  have henc : ∀ v ∈ [onTheSecond, oneLater], Encodable v := by
    intro v hv
    exact encodable_moments v (List.mem_append_left [twoLater, threeLater] hv)
  have hcut : Cut Format.mpack none := by
    rintro v written ⟨⟩
  have hdistinct : ([onTheSecond, oneLater].map Value.retype).Nodup := by
    simp [onTheSecond, oneLater, crumb, Value.retype, Value.retypePairs, ascii]
  have hsurvives := survives_of_apply Format.mpack_lawful (by decide : 0 < (1 : UInt32).toNat) (Or.inl (by decide))
    henc hcut hdistinct rfl h
  exact not_goesBefore_whole_second ho hn (by decide) (by decide) (by decide)
    (hsurvives.before (by decide) onTheSecond List.mem_cons_self oneLater rfl)

end Daemon

end SentryNative.Breadcrumb
