import SentryNative.Lib.CNumber
import Mathlib.Tactic.SplitIfs

/-!
# The vendored tokenizer

`vendor/jsmn.h` in its default build: neither strict mode nor parent links. The
parser runs over the text that is left, with `pos` counting the bytes behind it;
texts are shorter than 2^31 bytes, so its `int` positions are exact. `tokens` is
the allocated prefix of the token array, or none where the caller passed NULL to
count only.
-/

namespace SentryNative.Jsmn

open CLib

inductive TokType where
  | undefined
  | object
  | array
  | string
  | primitive
  deriving DecidableEq, Repr

/-- `end` is called `stop` here. An open container has `stop = -1`. -/
structure Tok where
  type : TokType
  start : Int
  stop : Int
  size : Nat
  deriving DecidableEq, Repr

inductive Err where
  | nomem
  | inval
  | part
  deriving DecidableEq, Repr

structure Parser where
  pos : Nat
  toksuper : Int
  count : Nat
  tokens : Option (List Tok)
  deriving DecidableEq, Repr

def isHex (c : UInt8) : Bool := (48 ≤ c && c ≤ 57) || (65 ≤ c && c ≤ 70) || (97 ≤ c && c ≤ 102)

/-- How a `\u` escape with fewer than four digits ends: a wrong character is
invalid, a text that stops is partial. -/
def hexError (l : Bytes) : Err :=
  match l.find? (!isHex ·) with
  | some c => if c = 0 then .part else .inval
  | none => .part

/-- `jsmn_parse_string` after the opening quote: the position of the closing
quote and the text behind it. -/
def parseString : Bytes → Nat → Except Err (Nat × Bytes)
  | [], _ => .error .part
  | 92 :: 117 :: a :: b :: c :: d :: r, p =>
    if isHex a && isHex b && isHex c && isHex d then parseString r (p + 6)
    else .error (hexError [a, b, c, d])
  | 92 :: 117 :: r, _ => .error (hexError r)
  | 92 :: c :: r, p =>
    if c ∈ [34, 47, 92, 98, 102, 114, 110, 116] then parseString r (p + 2)
    else .error .inval
  | c :: r, p =>
    if c = 0 then .error .part
    else if c = 34 then .ok (p, r)
    else parseString r (p + 1)

def isDelimiter (c : UInt8) : Bool := c ∈ [58, 9, 13, 10, 32, 44, 93, 125]

/-- `jsmn_parse_primitive`: the position of the first byte behind it and the
text from there on. -/
def parsePrimitive : Bytes → Nat → Except Err (Nat × Bytes)
  | [], p => .ok (p, [])
  | c :: r, p =>
    if c = 0 ∨ isDelimiter c then .ok (p, c :: r)
    else if c < 32 ∨ c ≥ 127 then .error .inval
    else parsePrimitive r (p + 1)

def Tok.isOpen (t : Tok) : Bool := t.start != -1 && t.stop == -1

def Tok.isContainer (t : Tok) : Bool := t.type = .array || t.type = .object

/-- The greatest index whose element satisfies `p`: the backward scans over the
token array. -/
def lastIdx {α : Type} (p : α → Bool) : List α → Option Nat
  | [] => none
  | a :: l =>
    match lastIdx p l with
    | some i => some (i + 1)
    | none => if p a then some 0 else none

def superOf : Option Nat → Int
  | some i => i
  | none => -1

/-- `tokens[toksuper].size++`, if there is a superior token. -/
def bump (super : Int) (ts : List Tok) : List Tok :=
  if super = -1 then ts else ts.modify super.toNat fun t => { t with size := t.size + 1 }

/-- `jsmn_alloc_token` and `jsmn_fill_token` of a leaf, counted by its superior. -/
def addLeaf (n : Nat) (st : Parser) (t : Tok) (next : Nat) : Except Err Parser :=
  match st.tokens with
  | none => .ok { st with pos := next, count := st.count + 1 }
  | some ts =>
    if n ≤ ts.length then .error .nomem
    else .ok { st with
      pos := next, count := st.count + 1, tokens := some (bump st.toksuper (ts ++ [t])) }

def openContainer (n : Nat) (st : Parser) (type : TokType) : Except Err Parser :=
  match st.tokens with
  | none => .ok { st with pos := st.pos + 1, count := st.count + 1 }
  | some ts =>
    if n ≤ ts.length then .error .nomem
    else .ok { st with
      pos := st.pos + 1, count := st.count + 1
      tokens := some (bump st.toksuper (ts ++ [⟨type, st.pos, -1, 0⟩]))
      toksuper := ts.length }

def closeContainer (st : Parser) (type : TokType) : Except Err Parser :=
  match st.tokens with
  | none => .ok { st with pos := st.pos + 1 }
  | some ts =>
    match lastIdx Tok.isOpen ts with
    | none => .error .inval
    | some i =>
      if (ts[i]?).map Tok.type ≠ some type then .error .inval
      else
        let ts := ts.modify i fun t => { t with stop := st.pos + 1 }
        .ok { st with
          pos := st.pos + 1
          tokens := some ts
          toksuper := superOf (lastIdx Tok.isOpen (ts.take (i + 1))) }

/-- A comma leaves a key for the container around it. -/
def comma (st : Parser) : Parser :=
  match st.tokens with
  | none => { st with pos := st.pos + 1 }
  | some ts =>
    if st.toksuper ≠ -1 ∧ (ts[st.toksuper.toNat]?).all (!·.isContainer) then
      match lastIdx (fun t => t.isContainer && t.isOpen) ts with
      | some i => { st with pos := st.pos + 1, toksuper := i }
      | none => { st with pos := st.pos + 1 }
    else { st with pos := st.pos + 1 }

/-- One turn of the loop in `jsmn_parse`, at the byte `c` with `r` behind it. -/
def step (n : Nat) (c : UInt8) (r : Bytes) (st : Parser) : Except Err (Bytes × Parser) :=
  if c = 123 then (openContainer n st .object).map (r, ·)
  else if c = 91 then (openContainer n st .array).map (r, ·)
  else if c = 125 then (closeContainer st .object).map (r, ·)
  else if c = 93 then (closeContainer st .array).map (r, ·)
  else if c = 34 then
    match parseString r (st.pos + 1) with
    | .error e => .error e
    | .ok (q, r) => (addLeaf n st ⟨.string, st.pos + 1, q, 0⟩ (q + 1)).map (r, ·)
  else if c = 9 ∨ c = 13 ∨ c = 10 ∨ c = 32 then .ok (r, { st with pos := st.pos + 1 })
  else if c = 58 then
    .ok (r, { st with pos := st.pos + 1, toksuper := ((st.tokens.getD []).length : Int) - 1 })
  else if c = 44 then .ok (r, comma st)
  else
    match parsePrimitive (c :: r) st.pos with
    | .error e => .error e
    | .ok (q, r) => (addLeaf n st ⟨.primitive, st.pos, q, 0⟩ q).map (r, ·)

def loop (n : Nat) : Nat → Bytes → Parser → Except Err Parser
  | 0, _, st => .ok st
  | _ + 1, [], st => .ok st
  | fuel + 1, c :: r, st =>
    if c = 0 then .ok st
    else
      match step n c r st with
      | .error e => .error e
      | .ok (r, st) => loop n fuel r st

/-- The loop to the end of the text: every turn consumes at least one byte. -/
def run (n : Nat) (text : Bytes) (st : Parser) : Except Err Parser := loop n text.length text st

/-- `jsmn_init` and `jsmn_parse`, with room for `n` tokens, or with NULL. -/
def parse (text : Bytes) (n : Option Nat) : Except Err Parser :=
  match run (n.getD 0) text ⟨0, -1, 0, n.map fun _ => []⟩ with
  | .error e => .error e
  | .ok st => if (st.tokens.getD []).any Tok.isOpen then .error .part else .ok st

/-! ## The loop without its fuel -/

theorem parseString_length {text r : Bytes} {p q : Nat} (h : parseString text p = .ok (q, r)) :
    r.length ≤ text.length := by
  induction text, p using parseString.induct with
  | case1 p => simp [parseString] at h
  | case2 p a b c d r' hx ih =>
    simp only [parseString, hx, ↓reduceIte] at h
    have := ih h
    simp only [List.length_cons]
    omega
  | case3 p a b c d r' hx => simp [parseString, hx] at h
  | case4 p r' hn => rw [parseString.eq_def] at h; grind
  | case5 p c r' hn hc ih => rw [parseString.eq_def] at h; grind
  | case6 p c r' hn hc => rw [parseString.eq_def] at h; grind
  | case7 => rw [parseString.eq_def] at h; grind
  | case8 => rw [parseString.eq_def] at h; grind
  | case9 => rw [parseString.eq_def] at h; grind

theorem parsePrimitive_length {text r : Bytes} {p q : Nat}
    (h : parsePrimitive text p = .ok (q, r)) : r.length ≤ text.length := by
  induction text generalizing p with
  | nil => simp [parsePrimitive] at h; simp [h]
  | cons c text ih =>
    simp only [parsePrimitive] at h
    split at h
    · simp only [Except.ok.injEq, Prod.mk.injEq] at h; simp [← h.2]
    · split at h
      · cases h
      · exact Nat.le_succ_of_le (ih h)

theorem step_length {n : Nat} {c : UInt8} {r r' : Bytes} {st st' : Parser} (hc : c ≠ 0)
    (h : step n c r st = .ok (r', st')) : r'.length ≤ r.length := by
  have hmap : ∀ {e : Except Err Parser}, e.map (r, ·) = .ok (r', st') → r' = r := by
    intro e he
    cases e <;> simp_all [Except.map]
  have hmap' : ∀ {s : Bytes} {e : Except Err Parser}, e.map (s, ·) = .ok (r', st') → r' = s := by
    intro s e he
    cases e <;> simp_all [Except.map]
  unfold step at h
  by_cases hobject : c = 123
  · rw [if_pos hobject] at h
    rw [hmap h]
  by_cases harray : c = 91
  · rw [if_neg hobject, if_pos harray] at h
    rw [hmap h]
  by_cases hobjectEnd : c = 125
  · rw [if_neg hobject, if_neg harray, if_pos hobjectEnd] at h
    rw [hmap h]
  by_cases harrayEnd : c = 93
  · rw [if_neg hobject, if_neg harray, if_neg hobjectEnd, if_pos harrayEnd] at h
    rw [hmap h]
  rw [if_neg hobject, if_neg harray, if_neg hobjectEnd, if_neg harrayEnd] at h
  by_cases hquote : c = 34
  · rw [if_pos hquote] at h
    cases hs : parseString r (st.pos + 1) with
    | error e => simp [hs] at h
    | ok q =>
      rw [hs] at h
      rw [hmap' h]
      exact parseString_length hs
  rw [if_neg hquote] at h
  by_cases hblank : c = 9 ∨ c = 13 ∨ c = 10 ∨ c = 32
  · rw [if_pos hblank, Except.ok.injEq, Prod.mk.injEq] at h
    rw [h.1]
  rw [if_neg hblank] at h
  by_cases hcolon : c = 58
  · rw [if_pos hcolon, Except.ok.injEq, Prod.mk.injEq] at h
    rw [h.1]
  rw [if_neg hcolon] at h
  by_cases hcomma : c = 44
  · rw [if_pos hcomma, Except.ok.injEq, Prod.mk.injEq] at h
    rw [h.1]
  rw [if_neg hcomma] at h
  -- a primitive starts with a byte that is no delimiter, so it consumes that byte
  have hd : isDelimiter c = false := by simp [isDelimiter]; grind
  rw [parsePrimitive, if_neg (by simp [hc, hd])] at h
  by_cases hr : c < 32 ∨ c ≥ 127
  · simp [hr] at h
  · rw [if_neg hr] at h
    cases hs : parsePrimitive r (st.pos + 1) with
    | error e => simp [hs] at h
    | ok q =>
      rw [hs] at h
      rw [hmap' h]
      exact parsePrimitive_length hs

theorem loop_fuel (n : Nat) : ∀ (k : Nat) (text : Bytes) (st : Parser) (f g : Nat),
    text.length ≤ k → text.length ≤ f → text.length ≤ g → loop n f text st = loop n g text st := by
  intro k
  induction k with
  | zero =>
    intro text st f g hk _ _
    cases text with
    | nil => cases f <;> cases g <;> rfl
    | cons c r => simp at hk
  | succ k ih =>
    intro text st f g hk hf hg
    cases text with
    | nil => cases f <;> cases g <;> rfl
    | cons c r =>
      cases f with
      | zero => simp at hf
      | succ f =>
        cases g with
        | zero => simp at hg
        | succ g =>
          simp only [List.length_cons, Nat.add_le_add_iff_right] at hk hf hg
          simp only [loop]
          split
          · rfl
          · rename_i hc
            cases hs : step n c r st with
            | error e => rfl
            | ok q =>
              have hl := step_length hc hs
              exact ih q.1 q.2 f g (by omega) (by omega) (by omega)

theorem run_nil (n : Nat) (st : Parser) : run n [] st = .ok st := rfl

/-- The loop as the source reads: one turn, then the rest of the text. -/
theorem run_cons (n : Nat) {c : UInt8} (hc : c ≠ 0) (r : Bytes) (st : Parser) :
    run n (c :: r) st =
      match step n c r st with
      | .error e => .error e
      | .ok q => run n q.1 q.2 := by
  simp only [run, List.length_cons, loop, if_neg hc]
  cases hs : step n c r st with
  | error e => rfl
  | ok q =>
    have hl := step_length hc hs
    exact loop_fuel n r.length q.1 q.2 _ _ hl hl (Nat.le_refl _)

end SentryNative.Jsmn
