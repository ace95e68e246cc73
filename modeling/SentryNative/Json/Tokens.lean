import SentryNative.Json.Writer
import SentryNative.Json.Jsmn
import Mathlib.Tactic.IntervalCases

/-!
# The tokens of a JSON text

The tokenizer run over the text of a tree appends the tree's tokens in preorder,
every container closed and every count right, and hands the superior token back
to the container it was started in.
-/

namespace SentryNative.Jsmn

open CLib Json

mutual

/-- The tokens of a value whose text starts at `p`. -/
def tokensOf (p : Nat) : Value → List Tok
  | .string s => [⟨.string, (p + 1 : Nat), (p + 1 + (s.flatMap escapeByte).length : Nat), 0⟩]
  | .list vs =>
    ⟨.array, p, (p + 2 + (renderItems false vs).length : Nat), vs.length⟩ ::
      tokensOfItems (p + 1) false vs
  | .object ps =>
    ⟨.object, p, (p + 2 + (renderPairs false ps).length : Nat), ps.length⟩ ::
      tokensOfPairs (p + 1) false ps
  | .null => [⟨.primitive, p, (p + (render .null).length : Nat), 0⟩]
  | .bool b => [⟨.primitive, p, (p + (render (.bool b)).length : Nat), 0⟩]
  | .int32 i => [⟨.primitive, p, (p + (render (.int32 i)).length : Nat), 0⟩]
  | .int64 i => [⟨.primitive, p, (p + (render (.int64 i)).length : Nat), 0⟩]
  | .uint64 u => [⟨.primitive, p, (p + (render (.uint64 u)).length : Nat), 0⟩]
  | .double d => [⟨.primitive, p, (p + (render (.double d)).length : Nat), 0⟩]

def tokensOfItems (p : Nat) (comma : Bool) : List Value → List Tok
  | [] => []
  | v :: vs =>
    let p := p + (separator comma).length
    tokensOf p v ++ tokensOfItems (p + (render v).length) true vs

def tokensOfPairs (p : Nat) (comma : Bool) : List (Bytes × Value) → List Tok
  | [] => []
  | (k, v) :: ps =>
    let p := p + (separator comma).length
    let q := p + (quote k).length + 1
    ⟨.string, (p + 1 : Nat), (p + 1 + (k.flatMap escapeByte).length : Nat), 1⟩ ::
      (tokensOf q v ++ tokensOfPairs (q + (render v).length) true ps)

end

/-! ## Scans over the token array -/

theorem lastIdx_append {α : Type} (p : α → Bool) (l m : List α) :
    lastIdx p (l ++ m) =
      match lastIdx p m with
      | some i => some (l.length + i)
      | none => lastIdx p l := by
  induction l with
  | nil => simp only [List.nil_append]; cases lastIdx p m <;> simp [lastIdx]
  | cons a l ih =>
    simp only [List.cons_append, lastIdx, ih]
    cases lastIdx p m with
    | none => rfl
    | some i => simp only [List.length_cons]; congr 1; omega

theorem lastIdx_eq_none {α : Type} {p : α → Bool} {l : List α} (h : ∀ a ∈ l, p a = false) :
    lastIdx p l = none := by
  induction l with
  | nil => rfl
  | cons a l ih => simp [lastIdx, ih fun b hb => h b (List.mem_cons_of_mem a hb), h a (by simp)]

theorem lastIdx_cons_closed {α : Type} {p : α → Bool} (B : List α) {a : α} {C : List α}
    (ha : p a = true) (hC : ∀ t ∈ C, p t = false) :
    lastIdx p (B ++ a :: C) = some B.length := by
  rw [lastIdx_append]
  simp [lastIdx, lastIdx_eq_none hC, ha]

theorem lastIdx_modify {α : Type} {p : α → Bool} {f : α → α} (hf : ∀ a, p (f a) = p a)
    (l : List α) (i : Nat) : lastIdx p (l.modify i f) = lastIdx p l := by
  induction l generalizing i with
  | nil => simp
  | cons a l ih =>
    cases i with
    | zero => simp [lastIdx, hf]
    | succ i => simp [lastIdx, ih]

theorem modify_append_left {α : Type} (f : α → α) {l : List α} {i : Nat} (h : i < l.length)
    (m : List α) : (l ++ m).modify i f = l.modify i f ++ m := by
  induction l generalizing i with
  | nil => simp at h
  | cons a l ih =>
    cases i with
    | zero => simp
    | succ i => simp [ih (by simpa using h)]

theorem modify_length_append {α : Type} (f : α → α) (B : List α) (t : α) (C : List α) :
    (B ++ t :: C).modify B.length f = B ++ f t :: C := by
  induction B with
  | nil => simp
  | cons a B ih => simp [ih]

theorem lastIdx_bump (s : Int) (ts : List Tok) :
    lastIdx Tok.isOpen (bump s ts) = lastIdx Tok.isOpen ts := by
  unfold bump
  split
  · rfl
  · exact lastIdx_modify (f := fun t : Tok => { t with size := t.size + 1 }) (fun _ => rfl) ts _

@[simp] theorem bump_length (s : Int) (ts : List Tok) : (bump s ts).length = ts.length := by
  unfold bump; split <;> simp

/-- The superior token is one of those allocated, or there is none. -/
def Superior (s : Int) (ts : List Tok) : Prop := s = -1 ∨ 0 ≤ s ∧ s < ts.length

theorem bump_append {s : Int} {ts : List Tok} (h : Superior s ts) (us : List Tok) :
    bump s (ts ++ us) = bump s ts ++ us := by
  unfold bump
  split
  · rfl
  · rcases h with h | h
    · contradiction
    · exact modify_append_left _ (by omega) us

theorem bump_at (B : List Tok) (t : Tok) (C : List Tok) :
    bump (B.length : Int) (B ++ t :: C) = B ++ { t with size := t.size + 1 } :: C := by
  unfold bump
  rw [if_neg (by omega), Int.toNat_natCast, modify_length_append]

/-! ## Leaves -/

theorem parseString_escapeByte (c : UInt8) (r : Bytes) (p : Nat) :
    parseString (escapeByte c ++ r) p = parseString r (p + (escapeByte c).length) := by
  by_cases hn : needsEscaping c = true
  · have hlt : c.toNat < 93 := by
      simp only [needsEscaping, Bool.or_eq_true, decide_eq_true_eq, beq_iff_eq] at hn
      rcases hn with (h | rfl) | rfl
      · have := UInt8.lt_iff_toNat_lt.mp h; simp at this; omega
      · decide
      · decide
    -- one of 34 bytes, each with an escape of fixed shape
    have hc : c = UInt8.ofNat c.toNat := by simp
    generalize c.toNat = m at hc hlt
    subst hc
    interval_cases m <;> rfl
  · have he : escapeByte c = [c] := by simp [escapeByte, hn]
    simp only [needsEscaping, Bool.or_eq_true, decide_eq_true_eq, beq_iff_eq, not_or] at hn
    have h0 : c ≠ 0 := by rintro rfl; exact hn.1.1 (by decide)
    rw [he]
    simp only [List.singleton_append, List.length_singleton]
    rw [parseString.eq_def]
    grind

theorem parseString_quoted (s : Bytes) (r : Bytes) (p : Nat) :
    parseString (s.flatMap escapeByte ++ 34 :: r) p =
      .ok (p + (s.flatMap escapeByte).length, r) := by
  induction s generalizing p with
  | nil => rw [List.flatMap_nil, List.nil_append, parseString.eq_def]; simp
  | cons c s ih =>
    rw [List.flatMap_cons, List.append_assoc, parseString_escapeByte, ih]
    simp [Nat.add_assoc]

/-- A byte that may stand in a primitive. -/
def isPrimitiveByte (c : UInt8) : Bool := !isDelimiter c && 32 ≤ c && c < 127

/-- Nothing that would go on with a primitive. -/
def Delimited (r : Bytes) : Prop := ∀ c ∈ r.head?, isDelimiter c = true

theorem parsePrimitive_append {t : Bytes} (ht : ∀ c ∈ t, isPrimitiveByte c = true) {r : Bytes}
    (hr : Delimited r) (p : Nat) : parsePrimitive (t ++ r) p = .ok (p + t.length, r) := by
  induction t generalizing p with
  | nil =>
    cases r with
    | nil => rfl
    | cons c r => simp [parsePrimitive, hr c (by simp)]
  | cons c t ih =>
    have hc := ht c (by simp)
    simp only [isPrimitiveByte, Bool.and_eq_true, Bool.not_eq_true', decide_eq_true_eq] at hc
    have h0 : c ≠ 0 := by rintro rfl; revert hc; decide
    rw [List.cons_append, parsePrimitive, if_neg (by simp [h0, hc.1.1]),
      if_neg (by grind), ih fun d hd => ht d (List.mem_cons_of_mem c hd)]
    simp only [List.length_cons]
    congr 2
    omega

end SentryNative.Jsmn
