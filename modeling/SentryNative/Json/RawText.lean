import SentryNative.Json.RoundTrip

/-!
# Objects with text that is not escaped

Some headers are printed with `%s` between two quotes. They read back as the text that was
printed when it has no quote, no backslash and no NUL; the tokenizer takes any other byte.
-/

namespace SentryNative.Json

open CLib Jsmn

/-- Text that a reader takes between quotes as it is. -/
def Verbatim (s : Bytes) : Prop := ∀ c ∈ s, c ≠ 34 ∧ c ≠ 92 ∧ c ≠ 0

theorem Verbatim.tail {c : UInt8} {s : Bytes} (h : Verbatim (c :: s)) : Verbatim s :=
  fun d hd => h d (List.mem_cons_of_mem c hd)

def verbatimPairs (comma : Bool) : List (Bytes × Bytes) → Bytes
  | [] => []
  | (k, s) :: ps => separator comma ++ quote k ++ 58 :: (34 :: s ++ 34 :: verbatimPairs true ps)

/-- The object with its values between quotes. -/
def verbatimObject (ps : List (Bytes × Bytes)) : Bytes := 123 :: (verbatimPairs false ps ++ [125])

/-! ## Tokens -/

theorem parseString_verbatim {s : Bytes} (h : Verbatim s) (r : Bytes) (p : Nat) :
    parseString (s ++ 34 :: r) p = .ok (p + s.length, r) := by
  induction s generalizing p with
  | nil =>
    rw [List.nil_append, parseString.eq_def]
    simp
  | cons c s ih =>
    obtain ⟨hquote, hback, hnul⟩ := h c List.mem_cons_self
    have hstep : parseString (c :: (s ++ 34 :: r)) p = parseString (s ++ 34 :: r) (p + 1) := by
      rw [parseString.eq_def]
      grind
    rw [List.cons_append, hstep, ih h.tail, List.length_cons, Nat.add_assoc, Nat.add_comm 1]

theorem run_verbatim (n : Nat) {ts : List Tok} {x : Int} (hx : Superior x ts) (hn : ts.length < n) {s : Bytes}
    (hs : Verbatim s) (p count : Nat) (r : Bytes) :
    run n (34 :: (s ++ 34 :: r)) ⟨p, x, count, some ts⟩ =
      run n r ⟨p + s.length + 2, x, count + 1,
        some (bump x ts ++ [⟨.string, (p + 1 : Nat), (p + 1 + s.length : Nat), 0⟩])⟩ := by
  have hlen : p + s.length + 2 = p + 1 + s.length + 1 := by omega
  rw [run_cons n (by decide)]
  simp only [step, parseString_verbatim hs, addLeaf, if_neg (Nat.not_le.mpr hn), bump_append hx, hlen]
  rfl

/-- The tokens of the pairs whose text starts at `p`. -/
def tokensOfVerbatim (p : Nat) (comma : Bool) : List (Bytes × Bytes) → List Tok
  | [] => []
  | (k, s) :: ps =>
    let p := p + (separator comma).length
    let q := p + (quote k).length + 1
    ⟨.string, (p + 1 : Nat), (p + 1 + (k.flatMap escapeByte).length : Nat), 1⟩ ::
      ⟨.string, (q + 1 : Nat), (q + 1 + s.length : Nat), 0⟩ :: tokensOfVerbatim (q + s.length + 2) true ps

theorem tokensOfVerbatim_closed (p : Nat) (comma : Bool) (ps : List (Bytes × Bytes)) :
    ∀ t ∈ tokensOfVerbatim p comma ps, t.isOpen = false := by
  induction ps generalizing p comma with
  | nil => simp [tokensOfVerbatim]
  | cons e ps ih =>
    intro t ht
    obtain rfl | ht := List.mem_cons.1 ht
    · exact closed_of_stop rfl
    obtain rfl | ht := List.mem_cons.1 ht
    · exact closed_of_stop rfl
    · exact ih _ _ t ht

theorem run_verbatimPairs {ps : List (Bytes × Bytes)} (h : ∀ e ∈ ps, Verbatim e.2) (n : Nat) (B : List Tok)
    (q : Nat) (r : Bytes) :
    ∀ (C : List Tok) (size p count : Nat) (comma : Bool) (x : Int),
    (∀ t ∈ C, t.isOpen = false) → ObjectOrKey x B (inside .object B C q size) →
    (comma = false → x = B.length) →
    (inside .object B C q size).length + (tokensOfVerbatim p comma ps).length ≤ n →
    ∃ x', run n (verbatimPairs comma ps ++ 125 :: r) ⟨p, x, count, some (inside .object B C q size)⟩ =
      run n (125 :: r) ⟨p + (verbatimPairs comma ps).length, x', count + (tokensOfVerbatim p comma ps).length,
        some (inside .object B (C ++ tokensOfVerbatim p comma ps) q (size + ps.length))⟩ := by
  induction ps with
  | nil =>
    intro C size p count comma x _ _ _ _
    exact ⟨x, by simp [verbatimPairs, tokensOfVerbatim]⟩
  | cons e ps ih =>
    obtain ⟨k, s⟩ := e
    intro C size p count comma x hC hx hfirst hn
    simp only [tokensOfVerbatim, List.length_cons, inside_length] at hn
    have hsep := run_separator n B q size p count hC hx hfirst
    generalize hp : p + (separator comma).length = p₁ at hn hsep
    let key : Tok := ⟨.string, (p₁ + 1 : Nat), (p₁ + 1 + (k.flatMap escapeByte).length : Nat), 0⟩
    let key₁ : Tok := { key with size := 1 }
    let value : Tok := ⟨.string, (p₁ + (quote k).length + 1 + 1 : Nat),
      (p₁ + (quote k).length + 1 + 1 + s.length : Nat), 0⟩
    have hlen : (B.length + 1 + C.length : Nat) = (inside .object B C q (size + 1)).length := by simp
    have hvalue := @run_verbatim n (inside .object B (C ++ [key]) q (size + 1)) _
      (Or.inr ⟨Int.natCast_nonneg (B.length + 1 + C.length),
        by rw [inside_length, List.length_append, List.length_singleton]; omega⟩)
      (by simp only [inside_length, List.length_append, List.length_singleton]; omega) s
      (h (k, s) List.mem_cons_self) (p₁ + (quote k).length + 1) (count + 1) (verbatimPairs true ps ++ 125 :: r)
    have hbump : bump (B.length + 1 + C.length : Nat) (inside .object B (C ++ [key]) q (size + 1)) =
        inside .object B (C ++ [key₁]) q (size + 1) := by
      rw [hlen, ← inside_append, ← inside_append]
      exact bump_at _ key []
    have hC' : ∀ t ∈ C ++ [key₁] ++ [value], t.isOpen = false := by
      intro t ht
      simp only [List.append_assoc, List.mem_append, List.mem_singleton] at ht
      obtain ht | rfl | rfl := ht
      · exact hC t ht
      · exact closed_of_stop rfl
      · exact closed_of_stop rfl
    have hsuper : ObjectOrKey (B.length + 1 + C.length : Nat) B
        (inside .object B (C ++ [key₁] ++ [value]) q (size + 1)) := by
      right
      refine ⟨B.length + 1 + C.length, key₁, rfl, ?_, rfl⟩
      rw [← inside_append, ← inside_append, List.append_assoc, hlen, List.getElem?_append_right (Nat.le_refl _)]
      simp
    rw [hbump] at hvalue
    obtain ⟨x', rest⟩ := ih (fun e he => h e (List.mem_cons_of_mem _ he)) (C ++ [key₁] ++ [value]) (size + 1)
      (p₁ + (quote k).length + 1 + s.length + 2) (count + 1 + 1) true _ hC' hsuper (by simp)
      (by simp only [inside_length, List.length_append, List.length_singleton]; omega)
    refine ⟨x', ?_⟩
    simp only [verbatimPairs, List.append_assoc, List.cons_append]
    rw [hsep, run_key n B q size p₁ count k _ (by rw [inside_length]; omega), hvalue, inside_append, rest]
    subst hp
    simp only [tokensOfVerbatim, List.length_append, List.length_cons, List.append_assoc, List.cons_append,
      List.nil_append, key₁, key, value]
    congr 2
    · omega
    · omega
    · rw [Nat.add_assoc size, Nat.add_comm 1]

theorem run_verbatimObject {ps : List (Bytes × Bytes)} (h : ∀ e ∈ ps, Verbatim e.2) :
    run (1 + (tokensOfVerbatim 1 false ps).length) (verbatimObject ps) ⟨0, -1, 0, some []⟩ =
      .ok ⟨(verbatimObject ps).length, -1, 1 + (tokensOfVerbatim 1 false ps).length,
        some (⟨.object, 0, ((verbatimObject ps).length : Nat), ps.length⟩ :: tokensOfVerbatim 1 false ps)⟩ := by
  have hopen := run_open (1 + (tokensOfVerbatim 1 false ps).length) .object 123 (by decide)
    (verbatimPairs false ps ++ [125]) (fun _ => rfl) (Or.inl rfl : Superior (-1) []) (by simp) 0 0
  obtain ⟨x, hpairs⟩ := run_verbatimPairs h (1 + (tokensOfVerbatim 1 false ps).length) [] 0 [] [] 0 1 1 false 0
    (by simp) (Or.inl rfl) (fun _ => rfl) (by simp)
  have hclose := run_close (1 + (tokensOfVerbatim 1 false ps).length) .object 125 (by decide) [] (fun _ => rfl) [] 0
    (0 + ps.length) (1 + (verbatimPairs false ps).length) (1 + (tokensOfVerbatim 1 false ps).length) x
    (tokensOfVerbatim_closed 1 false ps)
  have hlen : (verbatimObject ps).length = 1 + (verbatimPairs false ps).length + 1 := by
    simp [verbatimObject]
    omega
  rw [run_nil] at hclose
  have hstart : run (1 + (tokensOfVerbatim 1 false ps).length) (verbatimObject ps) ⟨0, -1, 0, some []⟩ =
      run (1 + (tokensOfVerbatim 1 false ps).length) [125] _ := hopen.trans hpairs
  rw [hstart, hlen]
  exact hclose.trans (by simp [lastIdx, superOf])

/-! ## Values -/

theorem decodeString_verbatim {s : Bytes} (h : Verbatim s) : decodeString s = some s := by
  induction s with
  | nil => rfl
  | cons c s ih =>
    obtain ⟨-, hback, hnul⟩ := h c List.mem_cons_self
    rw [decodeString_plain hback hnul, ih h.tail]
    rfl

variable {dt : DoubleText}

theorem readPairs_verbatim {ps : List (Bytes × Bytes)} (h : ∀ e ∈ ps, Verbatim e.2) (buf : Bytes) (fuel depth : Nat)
    (r : Bytes) (comma : Bool) (p : Nat) (acc : List (Bytes × Value)) (hbuf : buf.drop p = verbatimPairs comma ps ++ r)
    (hf : (tokensOfVerbatim p comma ps).length ≤ fuel) (hz : ∀ e ∈ ps, 0 ∉ e.1)
    (hn : (acc.map Prod.fst ++ ps.map Prod.fst).Nodup) :
    readPairs buf (tokensToValue dt buf fuel depth) ps.length acc (tokensOfVerbatim p comma ps) =
      some (acc ++ ps.map fun e => (e.1, .string e.2), []) := by
  induction ps generalizing comma p acc with
  | nil => simp [readPairs, tokensOfVerbatim]
  | cons e ps ih =>
    obtain ⟨k, s⟩ := e
    simp only [tokensOfVerbatim, List.length_cons] at hf
    obtain ⟨fuel, rfl⟩ : ∃ f, fuel = f + 1 := ⟨fuel - 1, by omega⟩
    simp only [verbatimPairs, List.append_assoc, List.cons_append] at hbuf
    have hk := drop_append_of_drop hbuf
    have hq : buf.drop (p + (separator comma).length) =
        [34] ++ (k.flatMap escapeByte ++ (34 :: 58 :: 34 :: (s ++ 34 :: (verbatimPairs true ps ++ r)))) := by
      rw [hk]
      simp [quote]
    have hkey := slice_of_drop (drop_append_of_drop hq) .string 1
    have hcolon : buf.drop (p + (separator comma).length + (quote k).length) =
        [58] ++ (34 :: (s ++ 34 :: (verbatimPairs true ps ++ r))) := drop_append_of_drop hk
    have hopen : buf.drop (p + (separator comma).length + (quote k).length + 1) =
        [34] ++ (s ++ 34 :: (verbatimPairs true ps ++ r)) := drop_append_of_drop hcolon
    have hvalue := slice_of_drop (drop_append_of_drop hopen) .string 0
    have hrest : buf.drop (p + (separator comma).length + (quote k).length + 1 + s.length + 2) =
        verbatimPairs true ps ++ r := by
      have hclose : buf.drop (p + (separator comma).length + (quote k).length + 1 + 1 + s.length) =
          [34] ++ (verbatimPairs true ps ++ r) := drop_append_of_drop (drop_append_of_drop hopen)
      have hend := drop_append_of_drop hclose
      rw [← hend]
      congr 1
      simp only [List.length_singleton]
      omega
    simp only [List.length_singleton] at hkey hvalue
    have hk0 : 0 ∉ k := hz (k, s) List.mem_cons_self
    have hfresh : k ∉ acc.map Prod.fst := by
      intro hmem
      exact (List.nodup_append.mp hn).2.2 k hmem k List.mem_cons_self rfl
    have hps := ih (fun e he => h e (List.mem_cons_of_mem _ he)) true _ (acc ++ [(k, .string s)]) hrest (by omega)
      (fun e he => hz e (List.mem_cons_of_mem _ he)) (by simpa using hn)
    simp only [List.length_cons, tokensOfVerbatim, readPairs, tokensToValue, hkey, hvalue, decodeString_escaped,
      decodeString_verbatim (h (k, s) List.mem_cons_self), cstr_of_not_mem hk0, Value.insert_of_not_mem hfresh, hps,
      ne_eq, not_true_eq_false, if_false, List.map_cons, List.append_assoc, List.singleton_append]

/-- An object that was printed with `%s` reads back as its texts. -/
theorem fromJson_verbatimObject {ps : List (Bytes × Bytes)} (h : ∀ e ∈ ps, Verbatim e.2)
    (hz : ∀ e ∈ ps, 0 ∉ e.1) (hn : (ps.map Prod.fst).Nodup) :
    fromJson dt (verbatimObject ps) = .object (ps.map fun e => (e.1, .string e.2)) := by
  have hrun := run_verbatimObject h
  have hopen : (verbatimObject ps).drop 0 = [123] ++ (verbatimPairs false ps ++ [125]) := rfl
  have hread := @readPairs_verbatim dt ps h (verbatimObject ps) (tokensOfVerbatim 1 false ps).length 1 [125] false 1 []
    (drop_append_of_drop hopen) (Nat.le_refl _) hz (by simpa using hn)
  obtain ⟨x, hcount⟩ := @loop_count _ 0 (verbatimObject ps).length (verbatimObject ps) _ _ (-1) [] rfl hrun
  have hrun₀ : run 0 (verbatimObject ps) ⟨0, -1, 0, none⟩ =
      .ok ⟨(verbatimObject ps).length, x, 1 + (tokensOfVerbatim 1 false ps).length, none⟩ := hcount
  have hclosed : (⟨.object, 0, ((verbatimObject ps).length : Nat), ps.length⟩ ::
      tokensOfVerbatim 1 false ps).any Tok.isOpen = false := by
    rw [List.any_eq_false]
    intro t ht
    obtain rfl | ht := List.mem_cons.1 ht
    · simp [@closed_of_stop ⟨.object, 0, ((verbatimObject ps).length : Nat), ps.length⟩ _ rfl]
    · simp [tokensOfVerbatim_closed 1 false ps t ht]
  have hlevel : ¬maxDepth ≤ 0 := by decide
  simp only [fromJson, parse, hrun₀, Option.map_none, Option.getD_none, List.any_nil, Option.map_some, Option.getD_some,
    hrun, hclosed, Bool.false_eq_true, if_false, List.length_cons, tokensToValue, if_neg hlevel, Nat.zero_add, hread,
    List.nil_append]
  rw [if_neg (by omega)]

end SentryNative.Json
