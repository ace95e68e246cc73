import SentryNative.Json.Tokens

/-!
# The tokenizer over the text of a tree

`run_render` is the invariant of the token pass; `parse_render` puts the
counting pass and the token pass together.
-/

namespace SentryNative.Jsmn

open CLib Json

def isContainer : Value → Bool
  | .list _ => true
  | .object _ => true
  | _ => false

/-- Where the superior token stands after a value: a scalar leaves it, a closed
container gives it to the innermost container still open. -/
def superAfter (v : Value) (s : Int) (ts : List Tok) : Int :=
  if isContainer v then superOf (lastIdx Tok.isOpen ts) else s

/-- The token pass over the text of `v`, wherever it stands. -/
def Tokenizes (v : Value) : Prop :=
  ∀ (n : Nat) (ts : List Tok) (s : Int) (p count : Nat) (r : Bytes), Superior s ts →
    ts.length + (tokensOf p v).length ≤ n → Delimited r →
    run n (render v ++ r) ⟨p, s, count, some ts⟩ =
      run n r ⟨p + (render v).length, superAfter v s ts, count + (tokensOf p v).length,
        some (bump s ts ++ tokensOf p v)⟩

/-! ## Closed tokens -/

theorem closed_of_stop {t : Tok} {k : Nat} (h : t.stop = k) : t.isOpen = false := by
  simp only [Tok.isOpen, h]
  have : ((k : Int) == -1) = false := by simp
  simp [this]

mutual

theorem tokensOf_closed (p : Nat) (v : Value) : ∀ t ∈ tokensOf p v, t.isOpen = false := by
  cases v with
  | list vs =>
    intro t ht
    rcases List.mem_cons.mp ht with rfl | ht
    · exact closed_of_stop rfl
    · exact tokensOfItems_closed _ _ vs t ht
  | object ps =>
    intro t ht
    rcases List.mem_cons.mp ht with rfl | ht
    · exact closed_of_stop rfl
    · exact tokensOfPairs_closed _ _ ps t ht
  | _ =>
    intro t ht
    simp only [tokensOf, List.mem_singleton] at ht
    subst ht
    exact closed_of_stop rfl

theorem tokensOfItems_closed (p : Nat) (comma : Bool) (vs : List Value) :
    ∀ t ∈ tokensOfItems p comma vs, t.isOpen = false := by
  cases vs with
  | nil => simp [tokensOfItems]
  | cons v vs =>
    intro t ht
    rcases List.mem_append.mp ht with ht | ht
    · exact tokensOf_closed _ v t ht
    · exact tokensOfItems_closed _ _ vs t ht

theorem tokensOfPairs_closed (p : Nat) (comma : Bool) (ps : List (Bytes × Value)) :
    ∀ t ∈ tokensOfPairs p comma ps, t.isOpen = false := by
  match ps with
  | [] => simp [tokensOfPairs]
  | (k, v) :: ps =>
    intro t ht
    rcases List.mem_cons.mp ht with rfl | ht
    · exact closed_of_stop rfl
    · rcases List.mem_append.mp ht with ht | ht
      · exact tokensOf_closed _ v t ht
      · exact tokensOfPairs_closed _ _ ps t ht

end

/-! ## Scalars -/

theorem run_string (n : Nat) {ts : List Tok} {s : Int} (hs : Superior s ts) (hn : ts.length < n)
    (str : Bytes) (p count : Nat) (r : Bytes) :
    run n (quote str ++ r) ⟨p, s, count, some ts⟩ =
      run n r ⟨p + (quote str).length, s, count + 1, some (bump s ts ++
        [⟨.string, (p + 1 : Nat), (p + 1 + (str.flatMap escapeByte).length : Nat), 0⟩])⟩ := by
  have htext : quote str ++ r = 34 :: (str.flatMap escapeByte ++ 34 :: r) := by simp [quote]
  have hlen : p + (quote str).length = p + 1 + (str.flatMap escapeByte).length + 1 := by
    simp [quote]; omega
  rw [htext, run_cons n (by decide)]
  simp only [step, parseString_quoted, addLeaf, if_neg (Nat.not_le.mpr hn), bump_append hs, hlen]
  rfl

theorem run_primitive (n : Nat) {ts : List Tok} {s : Int} (hs : Superior s ts) (hn : ts.length < n)
    {t : Bytes} (hne : t ≠ []) (ht : ∀ c ∈ t, isPrimitiveByte c = true)
    (hh : ∀ c ∈ t.head?, c ∉ [123, 91, 34]) (p count : Nat) {r : Bytes} (hr : Delimited r) :
    run n (t ++ r) ⟨p, s, count, some ts⟩ =
      run n r ⟨p + t.length, s, count + 1,
        some (bump s ts ++ [⟨.primitive, p, (p + t.length : Nat), 0⟩])⟩ := by
  cases t with
  | nil => contradiction
  | cons c t =>
    have hc := ht c (by simp)
    have hh' := hh c (by simp)
    have hprim := parsePrimitive_append ht hr p
    simp only [isPrimitiveByte, isDelimiter, Bool.and_eq_true, Bool.not_eq_true',
      decide_eq_true_eq, decide_eq_false_iff_not, List.mem_cons, List.not_mem_nil, or_false,
      not_or] at hc hh'
    have h0 : c ≠ 0 := by rintro rfl; revert hc; decide
    obtain ⟨⟨⟨h58, h9, h13, h10, h32, h44, h93, h125⟩, _⟩, _⟩ := hc
    obtain ⟨h123, h91, h34⟩ := hh'
    rw [List.cons_append] at hprim ⊢
    rw [run_cons n h0]
    simp only [step, h123, h91, h125, h93, h34, h9, h13, h10, h32, h58, h44, or_self, ↓reduceIte,
      hprim, addLeaf, if_neg (Nat.not_le.mpr hn), bump_append hs]
    rfl

theorem isPrimitiveByte_of_isDigit {c : UInt8} (h : isDigit c = true) :
    isPrimitiveByte c = true ∧ c ∉ [123, 91, 34] := by
  simp only [isDigit, Bool.and_eq_true, decide_eq_true_eq, UInt8.le_iff_toNat_le] at h
  have hc : c = UInt8.ofNat c.toNat := by simp
  obtain ⟨lo, hi⟩ : 48 ≤ c.toNat ∧ c.toNat ≤ 57 := h
  generalize c.toNat = m at hc lo hi
  subst hc
  interval_cases m <;> decide

theorem printInt_bytes (i : Int) : printInt i ≠ [] ∧ (∀ c ∈ printInt i, isPrimitiveByte c = true) ∧
    ∀ c ∈ (printInt i).head?, c ∉ [123, 91, 34] := by
  have digits : ∀ m, ∀ c ∈ printNat m, isPrimitiveByte c = true ∧ c ∉ [123, 91, 34] :=
    fun m c hc => isPrimitiveByte_of_isDigit (isDigit_of_mem_printNat hc)
  unfold printInt
  split
  · refine ⟨by simp, ?_, by simp⟩
    intro c hc
    rcases List.mem_cons.mp hc with rfl | hc
    · decide
    · exact (digits _ c hc).1
  · refine ⟨printNat_ne_nil _, fun c hc => (digits _ c hc).1, ?_⟩
    intro c hc
    exact (digits _ c (List.mem_of_mem_head? hc)).2

theorem tokenizes_primitive {v : Value} (hv : isContainer v = false)
    (htok : ∀ p, tokensOf p v = [⟨.primitive, p, (p + (render v).length : Nat), 0⟩])
    (hne : render v ≠ []) (hb : ∀ c ∈ render v, isPrimitiveByte c = true)
    (hh : ∀ c ∈ (render v).head?, c ∉ [123, 91, 34]) : Tokenizes v := by
  intro n ts s p count r hs hn hr
  rw [htok] at hn ⊢
  simp only [List.length_singleton] at hn ⊢
  rw [run_primitive n hs (by omega) hne hb hh p count hr]
  simp [superAfter, hv]

/-! ## Containers -/

/-- The state inside the container opened as token `B.length`: `C` are the
tokens of the contents so far. -/
def inside (type : TokType) (B C : List Tok) (q size : Nat) : List Tok :=
  B ++ ⟨type, q, -1, size⟩ :: C

@[simp] theorem inside_length (type : TokType) (B C : List Tok) (q size : Nat) :
    (inside type B C q size).length = B.length + 1 + C.length := by
  simp only [inside, List.length_append, List.length_cons]
  omega

theorem inside_append (type : TokType) (B C D : List Tok) (q size : Nat) :
    inside type B C q size ++ D = inside type B (C ++ D) q size := by
  simp [inside]

theorem isOpen_inside (type : TokType) (q size : Nat) :
    (⟨type, q, -1, size⟩ : Tok).isOpen = true := by
  have : ((q : Int) != -1) = true := by simp
  simp [Tok.isOpen, this]

theorem lastIdx_inside (type : TokType) (B : List Tok) {C : List Tok} (q size : Nat)
    (hC : ∀ t ∈ C, t.isOpen = false) :
    lastIdx Tok.isOpen (inside type B C q size) = some B.length :=
  lastIdx_cons_closed B (isOpen_inside type q size) hC

theorem superior_inside (type : TokType) (B C : List Tok) (q size : Nat) :
    Superior B.length (inside type B C q size) := by
  right
  rw [inside_length]
  omega

theorem run_items {vs : List Value} (h : ∀ v ∈ vs, Tokenizes v) (n : Nat) (B : List Tok)
    (q : Nat) (r : Bytes) :
    ∀ (C : List Tok) (size p count : Nat) (comma : Bool), (∀ t ∈ C, t.isOpen = false) →
    (inside .array B C q size).length + (tokensOfItems p comma vs).length ≤ n →
    run n (renderItems comma vs ++ 93 :: r)
        ⟨p, B.length, count, some (inside .array B C q size)⟩ =
      run n (93 :: r) ⟨p + (renderItems comma vs).length, B.length,
        count + (tokensOfItems p comma vs).length,
        some (inside .array B (C ++ tokensOfItems p comma vs) q (size + vs.length))⟩ := by
  induction vs with
  | nil => intro C size p count comma _ _; simp [renderItems, tokensOfItems]
  | cons v vs ih =>
    intro C size p count comma hC hn
    have hsep : run n (separator comma ++ (render v ++ (renderItems true vs ++ 93 :: r)))
        ⟨p, B.length, count, some (inside .array B C q size)⟩ =
        run n (render v ++ (renderItems true vs ++ 93 :: r))
          ⟨p + (separator comma).length, B.length, count, some (inside .array B C q size)⟩ := by
      cases comma with
      | false => rfl
      | true =>
        rw [separator, if_pos rfl, List.singleton_append, run_cons n (by decide)]
        simp [step, comma, Tok.isContainer, inside]
    have hdel : Delimited (renderItems true vs ++ 93 :: r) := by
      intro c hc
      cases vs <;> simp [renderItems, separator] at hc <;> subst hc <;> decide
    simp only [tokensOfItems, List.length_append] at hn
    have hv := h v (by simp) n (inside .array B C q size) B.length (p + (separator comma).length)
      count _ (superior_inside .array B C q size) (by omega) hdel
    have hs : superAfter v B.length (inside .array B C q size) = B.length := by
      simp [superAfter, lastIdx_inside .array B q size hC, superOf]
    rw [hs, show bump B.length (inside .array B C q size) = inside .array B C q (size + 1) from
      bump_at B _ C] at hv
    have rest := ih (fun w hw => h w (List.mem_cons_of_mem v hw))
      (C ++ tokensOf (p + (separator comma).length) v) (size + 1)
      (p + (separator comma).length + (render v).length)
      (count + (tokensOf (p + (separator comma).length) v).length) true
      (by
        intro t ht
        rcases List.mem_append.mp ht with ht | ht
        · exact hC t ht
        · exact tokensOf_closed _ v t ht)
      (by simp only [inside_length, List.length_append] at hn ⊢; omega)
    simp only [renderItems, List.append_assoc]
    rw [hsep, hv, inside_append, rest]
    simp only [tokensOfItems, List.length_append, List.length_cons, List.append_assoc,
      Nat.add_assoc, Nat.add_comm 1]

/-- Inside an object the superior token is the object or the last key. -/
def ObjectOrKey (x : Int) (B ts : List Tok) : Prop :=
  x = B.length ∨ ∃ (i : Nat) (t : Tok), x = i ∧ ts[i]? = some t ∧ t.isContainer = false

theorem comma_object (B : List Tok) {C : List Tok} (q size p count : Nat) {x : Int}
    (hC : ∀ t ∈ C, t.isOpen = false) (hx : ObjectOrKey x B (inside .object B C q size)) :
    comma ⟨p, x, count, some (inside .object B C q size)⟩ =
      ⟨p + 1, B.length, count, some (inside .object B C q size)⟩ := by
  have hlast : lastIdx (fun t : Tok => t.isContainer && t.isOpen) (inside .object B C q size) =
      some B.length := by
    apply lastIdx_cons_closed B
    · simp [Tok.isContainer, isOpen_inside]
    · intro t ht
      simp [hC t ht]
  rcases hx with rfl | ⟨i, t, rfl, ht, hk⟩
  · simp [comma, inside, Tok.isContainer]
  · simp only [comma, Int.toNat_natCast, ht, hlast, Option.all_some, hk, Bool.not_false, and_true]
    rw [if_pos (by omega)]

/-- One `"key":`, up to the value. -/
theorem run_key (n : Nat) (B : List Tok) {C : List Tok} (q size p count : Nat) (k r : Bytes)
    (hn : (inside .object B C q size).length < n) :
    run n (quote k ++ 58 :: r) ⟨p, B.length, count, some (inside .object B C q size)⟩ =
      run n r ⟨p + (quote k).length + 1, (B.length + 1 + C.length : Nat), count + 1,
        some (inside .object B
          (C ++ [⟨.string, (p + 1 : Nat), (p + 1 + (k.flatMap escapeByte).length : Nat), 0⟩])
          q (size + 1))⟩ := by
  rw [run_string n (superior_inside .object B C q size) hn,
    show bump B.length (inside .object B C q size) = inside .object B C q (size + 1) from
      bump_at B _ C, inside_append, run_cons n (by decide)]
  simp only [step, Option.getD_some, inside_length, List.length_append, List.length_singleton]
  have : ((B.length + 1 + (C.length + 1) : Nat) : Int) - 1 = (B.length + 1 + C.length : Nat) := by
    omega
  rw [this]
  rfl

/-- A comma between two pairs, after which the object is the superior token again. -/
theorem run_separator (n : Nat) (B : List Tok) {C : List Tok} (q size p count : Nat) {comma : Bool} {x : Int}
    (hC : ∀ t ∈ C, t.isOpen = false) (hx : ObjectOrKey x B (inside .object B C q size))
    (hfirst : comma = false → x = B.length) (text : Bytes) :
    run n (separator comma ++ text) ⟨p, x, count, some (inside .object B C q size)⟩ =
      run n text ⟨p + (separator comma).length, B.length, count, some (inside .object B C q size)⟩ := by
  cases comma with
  | false =>
    rw [hfirst rfl]
    rfl
  | true =>
    rw [separator, if_pos rfl, List.singleton_append, run_cons n (by decide)]
    simp only [step, comma_object B q size p count hC hx]
    rfl

theorem run_pairs {ps : List (Bytes × Value)} (h : ∀ e ∈ ps, Tokenizes e.2) (n : Nat)
    (B : List Tok) (q : Nat) (r : Bytes) :
    ∀ (C : List Tok) (size p count : Nat) (comma : Bool) (x : Int),
    (∀ t ∈ C, t.isOpen = false) → ObjectOrKey x B (inside .object B C q size) →
    (comma = false → x = B.length) →
    (inside .object B C q size).length + (tokensOfPairs p comma ps).length ≤ n →
    ∃ x', run n (renderPairs comma ps ++ 125 :: r)
        ⟨p, x, count, some (inside .object B C q size)⟩ =
      run n (125 :: r) ⟨p + (renderPairs comma ps).length, x',
        count + (tokensOfPairs p comma ps).length,
        some (inside .object B (C ++ tokensOfPairs p comma ps) q (size + ps.length))⟩ := by
  induction ps with
  | nil => intro C size p count comma x _ _ _ _; exact ⟨x, by simp [renderPairs, tokensOfPairs]⟩
  | cons e ps ih =>
    obtain ⟨k, v⟩ := e
    intro C size p count comma x hC hx hfirst hn
    simp only [tokensOfPairs, List.length_cons, List.length_append, inside_length] at hn
    have hsep := run_separator n B q size p count hC hx hfirst
    generalize hp : p + (separator comma).length = p₁ at hn hsep
    let key : Tok := ⟨.string, (p₁ + 1 : Nat), (p₁ + 1 + (k.flatMap escapeByte).length : Nat), 0⟩
    let key₁ : Tok := { key with size := 1 }
    have hdel : Delimited (renderPairs true ps ++ 125 :: r) := by
      intro c hc
      cases ps <;> simp [renderPairs, separator] at hc <;> subst hc <;> decide
    have hlen : (B.length + 1 + C.length : Nat) = (inside .object B C q (size + 1)).length := by simp
    have hv := h (k, v) (by simp) n (inside .object B (C ++ [key]) q (size + 1))
      (B.length + 1 + C.length : Nat) (p₁ + (quote k).length + 1) (count + 1)
      (renderPairs true ps ++ 125 :: r)
      (Or.inr ⟨by omega, by rw [inside_length, List.length_append, List.length_singleton]; omega⟩)
      (by simp only [inside_length, List.length_append, List.length_singleton]; omega) hdel
    have hbump : bump (B.length + 1 + C.length : Nat) (inside .object B (C ++ [key]) q (size + 1)) =
        inside .object B (C ++ [key₁]) q (size + 1) := by
      rw [hlen, ← inside_append, ← inside_append]
      exact bump_at _ key []
    have hkeyC : ∀ t ∈ C ++ [key], t.isOpen = false := by
      intro t ht
      rcases List.mem_append.mp ht with ht | ht
      · exact hC t ht
      · rw [List.mem_singleton.mp ht]; exact closed_of_stop rfl
    have hC' : ∀ t ∈ C ++ [key₁] ++ tokensOf (p₁ + (quote k).length + 1) v, t.isOpen = false := by
      intro t ht
      rcases List.mem_append.mp ht with ht | ht
      · rcases List.mem_append.mp ht with ht | ht
        · exact hC t ht
        · rw [List.mem_singleton.mp ht]; exact closed_of_stop rfl
      · exact tokensOf_closed _ v t ht
    have hsuper : ObjectOrKey
        (superAfter v (B.length + 1 + C.length : Nat) (inside .object B (C ++ [key]) q (size + 1))) B
        (inside .object B (C ++ [key₁] ++ tokensOf (p₁ + (quote k).length + 1) v) q (size + 1)) := by
      unfold superAfter
      split
      · left; rw [lastIdx_inside .object B q (size + 1) hkeyC]; rfl
      · right
        refine ⟨B.length + 1 + C.length, key₁, rfl, ?_, rfl⟩
        rw [← inside_append, ← inside_append, List.append_assoc, hlen,
          List.getElem?_append_right (Nat.le_refl _)]
        simp
    rw [hbump] at hv
    obtain ⟨x', rest⟩ := ih (fun e he => h e (List.mem_cons_of_mem _ he))
      (C ++ [key₁] ++ tokensOf (p₁ + (quote k).length + 1) v) (size + 1)
      (p₁ + (quote k).length + 1 + (render v).length)
      (count + 1 + (tokensOf (p₁ + (quote k).length + 1) v).length) true _ hC' hsuper
      (by simp)
      (by simp only [inside_length, List.length_append, List.length_singleton]; omega)
    refine ⟨x', ?_⟩
    simp only [renderPairs, List.append_assoc, List.cons_append]
    rw [hsep, run_key n B q size p₁ count k _ (by rw [inside_length]; omega), hv, inside_append, rest]
    subst hp
    simp only [tokensOfPairs, List.length_append, List.length_cons, List.append_assoc,
      List.cons_append, List.nil_append, key₁, key]
    congr 2
    · omega
    · omega
    · rw [Nat.add_assoc size, Nat.add_comm 1]

/-- A closing bracket ends the container opened last. -/
theorem run_close (n : Nat) (type : TokType) (c : UInt8) (hc : c ≠ 0) (r : Bytes)
    (hstep : ∀ st, step n c r st = (closeContainer st type).map (r, ·))
    (B : List Tok) {C : List Tok} (q size p count : Nat) (x : Int)
    (hC : ∀ t ∈ C, t.isOpen = false) :
    run n (c :: r) ⟨p, x, count, some (inside type B C q size)⟩ =
      run n r ⟨p + 1, superOf (lastIdx Tok.isOpen B), count,
        some (B ++ ⟨type, q, (p + 1 : Nat), size⟩ :: C)⟩ := by
  have hget : (inside type B C q size)[B.length]? = some ⟨type, q, -1, size⟩ := by simp [inside]
  have hmod : (inside type B C q size).modify B.length (fun t => { t with stop := (p : Int) + 1 }) =
      B ++ ⟨type, q, (p : Int) + 1, size⟩ :: C := modify_length_append _ B _ C
  have hclosed : Tok.isOpen ⟨type, q, (p : Int) + 1, size⟩ = false :=
    @closed_of_stop ⟨type, q, (p : Int) + 1, size⟩ (p + 1) rfl
  have hsuper : lastIdx Tok.isOpen
      ((B ++ ⟨type, q, (p : Int) + 1, size⟩ :: C).take (B.length + 1)) = lastIdx Tok.isOpen B := by
    rw [List.take_append, List.take_of_length_le (by omega), lastIdx_append]
    simp [lastIdx, hclosed]
  rw [run_cons n hc, hstep]
  simp only [closeContainer, lastIdx_inside type B q size hC, hget, Option.map_some, ne_eq,
    not_true_eq_false, ↓reduceIte, hmod, hsuper]
  rfl

theorem run_open (n : Nat) (type : TokType) (c : UInt8) (hc : c ≠ 0) (r : Bytes)
    (hstep : ∀ st, step n c r st = (openContainer n st type).map (r, ·))
    {ts : List Tok} {s : Int} (hs : Superior s ts) (hn : ts.length < n) (p count : Nat) :
    run n (c :: r) ⟨p, s, count, some ts⟩ =
      run n r ⟨p + 1, (bump s ts).length, count + 1, some (inside type (bump s ts) [] p 0)⟩ := by
  rw [run_cons n hc, hstep]
  simp only [openContainer, if_neg (Nat.not_le.mpr hn), bump_append hs, bump_length]
  rfl

theorem tokenizes_list {vs : List Value} (h : ∀ v ∈ vs, Tokenizes v) : Tokenizes (.list vs) := by
  intro n ts s p count r hs hn hr
  simp only [tokensOf, List.length_cons] at hn
  have hopen := run_open n .array 91 (by decide) (renderItems false vs ++ 93 :: r)
    (fun _ => rfl) hs (by omega) p count
  have hitems := run_items h n (bump s ts) p r [] 0 (p + 1) (count + 1) false (by simp)
    (by simp only [inside_length, bump_length, List.length_nil]; omega)
  have hclose := run_close n .array 93 (by decide) r (fun _ => rfl) (bump s ts)
    p (0 + vs.length) (p + 1 + (renderItems false vs).length)
    (count + 1 + (tokensOfItems (p + 1) false vs).length) (bump s ts).length
    (tokensOfItems_closed (p + 1) false vs)
  have hstop : p + 1 + (renderItems false vs).length + 1 = p + 2 + (renderItems false vs).length := by
    omega
  simp only [render, List.cons_append, List.append_assoc, List.nil_append]
  rw [hopen, hitems, List.nil_append, hclose, hstop]
  simp only [superAfter, isContainer, ↓reduceIte, lastIdx_bump, tokensOf, List.length_cons,
    List.length_append, List.length_nil, Nat.zero_add]
  congr 2
  · omega
  · omega

theorem tokenizes_object {ps : List (Bytes × Value)} (h : ∀ e ∈ ps, Tokenizes e.2) :
    Tokenizes (.object ps) := by
  intro n ts s p count r hs hn hr
  simp only [tokensOf, List.length_cons] at hn
  have hopen := run_open n .object 123 (by decide) (renderPairs false ps ++ 125 :: r)
    (fun _ => rfl) hs (by omega) p count
  obtain ⟨x, hpairs⟩ := run_pairs h n (bump s ts) p r [] 0 (p + 1) (count + 1) false
    (bump s ts).length (by simp) (Or.inl rfl) (fun _ => rfl)
    (by simp only [inside_length, bump_length, List.length_nil]; omega)
  have hclose := run_close n .object 125 (by decide) r (fun _ => rfl) (bump s ts)
    p (0 + ps.length) (p + 1 + (renderPairs false ps).length)
    (count + 1 + (tokensOfPairs (p + 1) false ps).length) x
    (tokensOfPairs_closed (p + 1) false ps)
  have hstop : p + 1 + (renderPairs false ps).length + 1 = p + 2 + (renderPairs false ps).length := by
    omega
  simp only [render, List.cons_append, List.append_assoc, List.nil_append]
  rw [hopen, hpairs, List.nil_append, hclose, hstop]
  simp only [superAfter, isContainer, ↓reduceIte, lastIdx_bump, tokensOf, List.length_cons,
    List.length_append, List.length_nil, Nat.zero_add]
  congr 2
  · omega
  · omega

theorem tokenizes_string (str : Bytes) : Tokenizes (.string str) := by
  intro n ts s p count r hs hn _
  exact run_string n hs hn str p count r

/-- **The token pass.** Every tree's text yields its tokens. -/
theorem run_render (v : Value) : Tokenizes v := by
  induction v using Value.tree_induction with
  | null => exact tokenizes_primitive rfl (fun _ => rfl) (by decide +kernel) (by decide +kernel) (by decide +kernel)
  | bool b =>
    cases b <;>
      exact tokenizes_primitive rfl (fun _ => rfl) (by decide +kernel) (by decide +kernel) (by decide +kernel)
  | int32 i =>
    obtain ⟨hne, hb, hh⟩ := printInt_bytes i.toInt
    exact tokenizes_primitive rfl (fun _ => rfl) hne hb hh
  | int64 i =>
    obtain ⟨hne, hb, hh⟩ := printInt_bytes i.toInt
    exact tokenizes_primitive rfl (fun _ => rfl) hne hb hh
  | uint64 u =>
    obtain ⟨hne, hb, hh⟩ := printInt_bytes u.toNat
    exact tokenizes_primitive rfl (fun _ => rfl) hne hb hh
  | double d =>
    have hr : render (.double d) = render .null := rfl
    exact tokenizes_primitive rfl (fun _ => rfl) (by rw [hr]; decide +kernel) (by rw [hr]; decide +kernel)
      (by rw [hr]; decide +kernel)
  | string s => exact tokenizes_string s
  | list vs ih => exact tokenizes_list ih
  | object ps ih => exact tokenizes_object ih

/-! ## The counting pass -/

/-- What a part of a turn does to the tokens, it does to a parser that only counts. -/
def Counts (f g : Parser → Except Err Parser) : Prop :=
  ∀ (st st' : Parser) (ts : List Tok) (x : Int), st.tokens = some ts → f st = .ok st' →
    (∃ ts', st'.tokens = some ts') ∧
      ∃ x', g ⟨st.pos, x, st.count, none⟩ = .ok ⟨st'.pos, x', st'.count, none⟩

theorem openContainer_counts (n m : Nat) (type : TokType) :
    Counts (openContainer n · type) (openContainer m · type) := by
  intro st st' ts x hts h
  simp only [openContainer, hts] at h ⊢
  split at h
  · cases h
  · cases h; exact ⟨⟨_, rfl⟩, x, rfl⟩

theorem closeContainer_counts (type : TokType) :
    Counts (closeContainer · type) (closeContainer · type) := by
  intro st st' ts x hts h
  simp only [closeContainer, hts] at h ⊢
  split at h
  · cases h
  · split at h
    · cases h
    · cases h; exact ⟨⟨_, rfl⟩, x, rfl⟩

theorem addLeaf_counts (n m : Nat) (t : Tok) (next : Nat) :
    Counts (addLeaf n · t next) (addLeaf m · t next) := by
  intro st st' ts x hts h
  simp only [addLeaf, hts] at h ⊢
  split at h
  · cases h
  · cases h; exact ⟨⟨_, rfl⟩, x, rfl⟩

theorem comma_counts : Counts (fun st => .ok (comma st)) (fun st => .ok (comma st)) := by
  intro st st' ts x hts h
  simp only [Except.ok.injEq] at h
  subst h
  simp only [comma, hts]
  split
  · split <;> exact ⟨⟨_, rfl⟩, x, rfl⟩
  · exact ⟨⟨_, rfl⟩, x, rfl⟩

theorem Counts.map {f g : Parser → Except Err Parser} (h : Counts f g) {st st' : Parser}
    {ts : List Tok} (x : Int) {s r' : Bytes} (hts : st.tokens = some ts)
    (he : (f st).map (s, ·) = .ok (r', st')) :
    ∃ x', (∃ ts', st'.tokens = some ts') ∧
      (g ⟨st.pos, x, st.count, none⟩).map (s, ·) = .ok (r', ⟨st'.pos, x', st'.count, none⟩) := by
  cases hf : f st with
  | error e => simp [hf, Except.map] at he
  | ok st₁ =>
    simp only [hf, Except.map, Except.ok.injEq, Prod.mk.injEq] at he
    obtain ⟨rfl, rfl⟩ := he
    obtain ⟨hts', x', hg⟩ := h st st₁ ts x hts hf
    exact ⟨x', hts', by simp [hg, Except.map]⟩

/-- A turn of the token pass is also a turn of the counting pass. -/
theorem step_count {n m : Nat} {c : UInt8} {r r' : Bytes} {st st' : Parser} (x : Int)
    {ts : List Tok} (hts : st.tokens = some ts) (h : step n c r st = .ok (r', st')) :
    ∃ x', (∃ ts', st'.tokens = some ts') ∧
      step m c r ⟨st.pos, x, st.count, none⟩ = .ok (r', ⟨st'.pos, x', st'.count, none⟩) := by
  unfold step at h ⊢
  by_cases hobject : c = 123
  · rw [if_pos hobject] at h ⊢
    exact (openContainer_counts n m _).map x hts h
  rw [if_neg hobject] at h ⊢
  by_cases harray : c = 91
  · rw [if_pos harray] at h ⊢
    exact (openContainer_counts n m _).map x hts h
  rw [if_neg harray] at h ⊢
  by_cases hobjectEnd : c = 125
  · rw [if_pos hobjectEnd] at h ⊢
    exact (closeContainer_counts _).map x hts h
  rw [if_neg hobjectEnd] at h ⊢
  by_cases harrayEnd : c = 93
  · rw [if_pos harrayEnd] at h ⊢
    exact (closeContainer_counts _).map x hts h
  rw [if_neg harrayEnd] at h ⊢
  by_cases hquote : c = 34
  · rw [if_pos hquote] at h ⊢
    cases hs : parseString r (st.pos + 1) with
    | error e => simp [hs] at h
    | ok q =>
      simp only [hs] at h
      simp only
      exact (addLeaf_counts n m _ _).map x hts h
  rw [if_neg hquote] at h ⊢
  by_cases hblank : c = 9 ∨ c = 13 ∨ c = 10 ∨ c = 32
  · rw [if_pos hblank] at h ⊢
    cases h
    exact ⟨x, ⟨ts, hts⟩, rfl⟩
  rw [if_neg hblank] at h ⊢
  by_cases hcolon : c = 58
  · rw [if_pos hcolon] at h ⊢
    cases h
    exact ⟨-1, ⟨ts, hts⟩, rfl⟩
  rw [if_neg hcolon] at h ⊢
  by_cases hcomma : c = 44
  · rw [if_pos hcomma] at h ⊢
    exact comma_counts.map x hts h
  rw [if_neg hcomma] at h ⊢
  cases hs : parsePrimitive (c :: r) st.pos with
  | error e => simp [hs] at h
  | ok q =>
    simp only [hs] at h
    simp only
    exact (addLeaf_counts n m _ _).map x hts h

theorem loop_count {n m : Nat} : ∀ (fuel : Nat) (text : Bytes) (st st' : Parser) (x : Int)
    (ts : List Tok), st.tokens = some ts → loop n fuel text st = .ok st' →
    ∃ x', loop m fuel text ⟨st.pos, x, st.count, none⟩ = .ok ⟨st'.pos, x', st'.count, none⟩ := by
  intro fuel
  induction fuel with
  | zero =>
    intro text st st' x ts _ h
    simp only [loop, Except.ok.injEq] at h
    subst h
    exact ⟨x, rfl⟩
  | succ fuel ih =>
    intro text st st' x ts hts h
    cases text with
    | nil =>
      simp only [loop, Except.ok.injEq] at h
      subst h
      exact ⟨x, rfl⟩
    | cons c r =>
      by_cases hc : c = 0
      · simp only [loop, hc, ↓reduceIte, Except.ok.injEq] at h
        subst h
        exact ⟨x, by simp [loop, hc]⟩
      · simp only [loop, if_neg hc] at h ⊢
        cases hs : step n c r st with
        | error e => simp [hs] at h
        | ok q =>
          obtain ⟨r', st₁⟩ := q
          rw [hs] at h
          obtain ⟨x', ⟨ts', hts'⟩, hcount⟩ := step_count (m := m) x hts hs
          rw [hcount]
          exact ih r' st₁ st' x' ts' hts' h

/-- **The tokenizer on the text of a tree**: the counting pass finds the number
of tokens, and with that much room the second pass fills them in. -/
theorem parse_render (v : Value) :
    (parse (render v) none).map Parser.count = .ok (tokensOf 0 v).length ∧
    parse (render v) (some (tokensOf 0 v).length) =
      .ok ⟨(render v).length, -1, (tokensOf 0 v).length, some (tokensOf 0 v)⟩ := by
  have hrun := run_render v (tokensOf 0 v).length [] (-1) 0 0 [] (Or.inl rfl) (by simp)
    (by intro c hc; simp at hc)
  have hs : superAfter v (-1) [] = -1 := by unfold superAfter; split <;> rfl
  rw [run_nil, List.append_nil, hs] at hrun
  simp only [Nat.zero_add, bump, ↓reduceIte, List.nil_append] at hrun
  constructor
  · obtain ⟨x', hcount⟩ := loop_count (m := 0) (render v).length (render v) _ _ (-1) [] rfl hrun
    have hrun₀ : run 0 (render v) ⟨0, -1, 0, none⟩ =
        .ok ⟨(render v).length, x', (tokensOf 0 v).length, none⟩ := hcount
    simp [parse, hrun₀, Except.map]
  · have hclosed : (tokensOf 0 v).any Tok.isOpen = false := by
      rw [List.any_eq_false]
      intro t ht
      simp [tokensOf_closed 0 v t ht]
    simp [parse, hrun, hclosed]

end SentryNative.Jsmn
