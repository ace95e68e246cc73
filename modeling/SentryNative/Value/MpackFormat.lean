import SentryNative.Value.Msgpack

/-!
# The wire format of mpack

The formats that the writer of `mpack.c` chooses for the calls of the encoder, and
a parser for them. It keeps the laws the round trip relies on.
-/

namespace SentryNative.Msgpack.Format

open CLib

/-! ## Numbers, most significant byte first -/

def be : Nat → Nat → Bytes
  | 0, _ => []
  | w + 1, n => UInt8.ofNat (n / 256 ^ w) :: be w n

def ofBe : Bytes → Nat
  | [] => 0
  | b :: bs => b.toNat * 256 ^ bs.length + ofBe bs

theorem length_be (w n : Nat) : (be w n).length = w := by
  induction w with
  | zero => rfl
  | succ w ih => simp only [be, List.length_cons, ih]

theorem ofBe_be (w n : Nat) : ofBe (be w n) = n % 256 ^ w := by
  induction w with
  | zero => simp only [be, ofBe, Nat.pow_zero, Nat.mod_one]
  | succ w ih =>
    have hmod : n % 256 ^ (w + 1) = n / 256 ^ w % 256 * 256 ^ w + n % 256 ^ w := by
      rw [Nat.pow_succ, Nat.mod_mul, Nat.mul_comm, Nat.add_comm]
    simp only [be, ofBe, length_be, ih, UInt8.toNat_ofNat']
    exact hmod.symm

def readBe (w : Nat) (bs : Bytes) : Option (Nat × Bytes) :=
  if w ≤ bs.length then some (ofBe (bs.take w), bs.drop w) else none

theorem readBe_be {w n : Nat} (h : n < 256 ^ w) (rest : Bytes) :
    readBe w (be w n ++ rest) = some (n, rest) := by
  have hl := length_be w n
  have hle : w ≤ (be w n ++ rest).length := by
    rw [List.length_append]
    omega
  rw [readBe, if_pos hle, List.take_left' hl, List.drop_left' hl, ofBe_be, Nat.mod_eq_of_lt h]

/-! ## The writer -/

/-- `mpack_write_i64`, and the other integer writers on their ranges. -/
def encodeInt (i : Int) : Bytes :=
  if -32 ≤ i then
    if i ≤ 127 then [UInt8.ofNat (i % 256).toNat]
    else if i < 2 ^ 8 then 0xcc :: be 1 i.toNat
    else if i < 2 ^ 16 then 0xcd :: be 2 i.toNat
    else if i < 2 ^ 32 then 0xce :: be 4 i.toNat
    else 0xcf :: be 8 i.toNat
  else if -2 ^ 7 ≤ i then 0xd0 :: be 1 (i + 2 ^ 8).toNat
  else if -2 ^ 15 ≤ i then 0xd1 :: be 2 (i + 2 ^ 16).toNat
  else if -2 ^ 31 ≤ i then 0xd2 :: be 4 (i + 2 ^ 32).toNat
  else 0xd3 :: be 8 (i + 2 ^ 64).toNat

/-- The head of a string. -/
def encodeStr (n : Nat) : Bytes :=
  if n ≤ 31 then [UInt8.ofNat (0xa0 + n)]
  else if n < 2 ^ 8 then 0xd9 :: be 1 n
  else if n < 2 ^ 16 then 0xda :: be 2 n
  else 0xdb :: be 4 n

def encodeArray (n : Nat) : Bytes :=
  if n ≤ 15 then [UInt8.ofNat (0x90 + n)]
  else if n < 2 ^ 16 then 0xdc :: be 2 n
  else 0xdd :: be 4 n

def encodeMap (n : Nat) : Bytes :=
  if n ≤ 15 then [UInt8.ofNat (0x80 + n)]
  else if n < 2 ^ 16 then 0xde :: be 2 n
  else 0xdf :: be 4 n

def encode : MpackCall → Bytes
  | .nil => [0xc0]
  | .bool b => [if b then 0xc3 else 0xc2]
  | .i32 i => encodeInt i.toInt
  | .i64 i => encodeInt i.toInt
  | .u64 u => encodeInt u.toNat
  | .double bits => 0xcb :: be 8 bits.toNat
  | .str s => encodeStr s.length ++ s
  | .startArray count => encodeArray count.toNat
  | .startMap count => encodeMap count.toNat
  | .finishArray | .finishMap => []

def write (cs : List MpackCall) : Bytes := cs.flatMap encode

/-! ## The parser -/

inductive Tag where
  | leaf (n : MpackNode)
  | str (size : Nat)
  | array (count : Nat)
  | map (count : Nat)

def uintTag (x : Nat) : Tag := .leaf (.uint (UInt64.ofNat x))

/-- A signed number in two's complement over `w` bytes. -/
def intTag (w x : Nat) : Tag :=
  .leaf (.int (Int64.ofInt (if 2 * x < 256 ^ w then x else (x : Int) - 256 ^ w)))

/-- The formats of one byte. -/
def shortTag (t : Nat) : Option Tag :=
  if t < 0x80 then some (uintTag t)
  else if t < 0x90 then some (.map (t - 0x80))
  else if t < 0xa0 then some (.array (t - 0x90))
  else if t < 0xc0 then some (.str (t - 0xa0))
  else if t = 0xc0 then some (.leaf .nil)
  else if t = 0xc2 then some (.leaf (.bool false))
  else if t = 0xc3 then some (.leaf (.bool true))
  else if 0xe0 ≤ t then some (intTag 1 t)
  else none

/-- The formats with a number of so many bytes; those the writer does not use are
errors here. -/
def wideTag : Nat → Option (Nat × (Nat → Tag))
  | 0xcb => some (8, fun x => .leaf (.double (UInt64.ofNat x)))
  | 0xcc => some (1, uintTag)
  | 0xcd => some (2, uintTag)
  | 0xce => some (4, uintTag)
  | 0xcf => some (8, uintTag)
  | 0xd0 => some (1, intTag 1)
  | 0xd1 => some (2, intTag 2)
  | 0xd2 => some (4, intTag 4)
  | 0xd3 => some (8, intTag 8)
  | 0xd9 => some (1, .str)
  | 0xda => some (2, .str)
  | 0xdb => some (4, .str)
  | 0xdc => some (2, .array)
  | 0xdd => some (4, .array)
  | 0xde => some (2, .map)
  | 0xdf => some (4, .map)
  | _ => none

def readTag : Bytes → Option (Tag × Bytes)
  | [] => none
  | b :: bs =>
    match shortTag b.toNat with
    | some tag => some (tag, bs)
    | none =>
      match wideTag b.toNat with
      | some (w, tag) => (readBe w bs).map fun p => (tag p.1, p.2)
      | none => none

section Many

variable {α : Type}

/-- As many as the count says. -/
def many (p : Bytes → Option (α × Bytes)) : Nat → Bytes → Option (List α × Bytes)
  | 0, bs => some ([], bs)
  | n + 1, bs => (p bs).bind fun x => (many p n x.2).map fun y => (x.1 :: y.1, y.2)

def pair (p : Bytes → Option (α × Bytes)) (bs : Bytes) : Option ((α × α) × Bytes) :=
  (p bs).bind fun x => (p x.2).map fun y => ((x.1, y.1), y.2)

end Many

/-- The fuel bounds the nesting. -/
def parseNode : Nat → Bytes → Option (MpackNode × Bytes)
  | 0, _ => none
  | fuel + 1, bs => (readTag bs).bind fun (tag, rest) =>
    match tag with
    | .leaf n => some (n, rest)
    | .str size => if size ≤ rest.length then some (.str (rest.take size), rest.drop size) else none
    | .array count => (many (parseNode fuel) count rest).map fun x => (.array x.1, x.2)
    | .map count => (many (pair (parseNode fuel)) count rest).map fun x => (.map x.1, x.2)

def parse (bs : Bytes) : Option (MpackNode × Nat) :=
  (parseNode (bs.length + 1) bs).map fun x => (x.1, bs.length - x.2.length)

def mpack : Mpack := ⟨write, parse⟩

/-! ## A parser that reads on -/

/-- More bytes at the end do not change what is read. -/
def Extends {α : Type} (p q : Bytes → Option (α × Bytes)) : Prop :=
  ∀ bs x rest more, p bs = some (x, rest) → q (bs ++ more) = some (x, rest ++ more)

theorem readBe_extends (w : Nat) : Extends (readBe w) (readBe w) := by
  intro bs x rest more h
  unfold readBe at h ⊢
  split at h
  · rename_i hle
    cases h
    have hle' : w ≤ (bs ++ more).length := by
      rw [List.length_append]
      omega
    rw [if_pos hle', List.take_append_of_le_length hle, List.drop_append_of_le_length hle]
  · cases h

theorem readTag_extends : Extends readTag readTag := by
  intro bs x rest more h
  cases bs with
  | nil => cases h
  | cons b bs =>
    simp only [readTag, List.cons_append] at h ⊢
    cases hs : shortTag b.toNat with
    | some tag =>
      rw [hs] at h
      cases h
      rfl
    | none =>
      simp only [hs] at h ⊢
      cases hw : wideTag b.toNat with
      | none =>
        rw [hw] at h
        cases h
      | some wide =>
        simp only [hw, Option.map_eq_some_iff] at h ⊢
        obtain ⟨⟨y, r⟩, hr, he⟩ := h
        cases he
        exact ⟨(y, r ++ more), readBe_extends _ _ _ _ more hr, rfl⟩

section Many

variable {α : Type} {p q : Bytes → Option (α × Bytes)}

theorem many_extends (h : Extends p q) (n : Nat) : Extends (many p n) (many q n) := by
  induction n with
  | zero =>
    intro bs x rest more hp
    cases hp
    rfl
  | succ n ih =>
    intro bs x rest more hp
    simp only [many, Option.bind_eq_some_iff, Option.map_eq_some_iff] at hp ⊢
    obtain ⟨⟨a, r⟩, ha, ⟨as, r'⟩, has, he⟩ := hp
    cases he
    exact ⟨(a, r ++ more), h _ _ _ more ha, (as, r' ++ more), ih _ _ _ more has, rfl⟩

theorem pair_extends (h : Extends p q) : Extends (pair p) (pair q) := by
  intro bs x rest more hp
  simp only [pair, Option.bind_eq_some_iff, Option.map_eq_some_iff] at hp ⊢
  obtain ⟨⟨a, r⟩, ha, ⟨b, r'⟩, hb, he⟩ := hp
  cases he
  exact ⟨(a, r ++ more), h _ _ _ more ha, (b, r' ++ more), h _ _ _ more hb, rfl⟩

end Many

theorem parseNode_extends {fuel fuel' : Nat} (h : fuel ≤ fuel') :
    Extends (parseNode fuel) (parseNode fuel') := by
  induction fuel generalizing fuel' with
  | zero =>
    intro bs x rest more hp
    cases hp
  | succ fuel ih =>
    obtain ⟨fuel', rfl⟩ : ∃ f, fuel' = f + 1 := ⟨fuel' - 1, by omega⟩
    have ih := ih (Nat.le_of_succ_le_succ h)
    intro bs x rest more hp
    simp only [parseNode, Option.bind_eq_some_iff] at hp ⊢
    obtain ⟨⟨tag, r⟩, ht, hp⟩ := hp
    refine ⟨(tag, r ++ more), readTag_extends _ _ _ more ht, ?_⟩
    cases tag with
    | leaf n =>
      cases hp
      rfl
    | str size =>
      simp only at hp ⊢
      split at hp
      · rename_i hle
        cases hp
        have hle' : size ≤ (r ++ more).length := by
          rw [List.length_append]
          omega
        rw [if_pos hle', List.take_append_of_le_length hle, List.drop_append_of_le_length hle]
      · cases hp
    | array count =>
      simp only [Option.map_eq_some_iff] at hp ⊢
      obtain ⟨⟨ns, r'⟩, hm, he⟩ := hp
      cases he
      exact ⟨(ns, r' ++ more), many_extends ih count _ _ _ more hm, rfl⟩
    | map count =>
      simp only [Option.map_eq_some_iff] at hp ⊢
      obtain ⟨⟨ps, r'⟩, hm, he⟩ := hp
      cases he
      exact ⟨(ps, r' ++ more), many_extends (pair_extends ih) count _ _ _ more hm, rfl⟩

/-! ## Tags -/

theorem readTag_short {t : Nat} (ht : t < 256) {tag : Tag} (h : shortTag t = some tag) (rest : Bytes) :
    readTag (UInt8.ofNat t :: rest) = some (tag, rest) := by
  have hb : (UInt8.ofNat t).toNat = t := by
    rw [UInt8.toNat_ofNat']
    exact Nat.mod_eq_of_lt ht
  simp only [readTag, hb, h]

theorem readTag_wide {b : UInt8} {w n : Nat} {tag : Nat → Tag} (hs : shortTag b.toNat = none)
    (hw : wideTag b.toNat = some (w, tag)) (hn : n < 256 ^ w) (rest : Bytes) :
    readTag (b :: (be w n ++ rest)) = some (tag n, rest) := by
  simp only [readTag, hs, hw, readBe_be hn, Option.map_some]

theorem intTag_of_neg {w : Nat} {i : Int} (hlo : -256 ^ w ≤ 2 * i) (hneg : i < 0) :
    intTag w (i + 256 ^ w).toNat = .leaf (.int (Int64.ofInt i)) := by
  have hpow : (0 : Int) < 256 ^ w := by positivity
  have hcast : (((i + 256 ^ w).toNat : Nat) : Int) = i + 256 ^ w := Int.toNat_of_nonneg (by omega)
  have hge : ¬ 2 * (i + 256 ^ w).toNat < 256 ^ w := by
    zify
    rw [hcast]
    omega
  rw [intTag, if_neg hge, hcast]
  congr 3
  omega

theorem readTag_encodeInt {i : Int} (hlo : -2 ^ 63 ≤ i) (hhi : i < 2 ^ 64) (rest : Bytes) :
    readTag (encodeInt i ++ rest) = some (.leaf (.ofInteger i), rest) := by
  unfold encodeInt
  by_cases hneg : i < 0
  · have hnode : MpackNode.ofInteger i = .int (Int64.ofInt i) := if_neg (by omega)
    rw [hnode]
    by_cases h0 : -32 ≤ i
    · have hmod : (i % 256).toNat = (i + 256 ^ 1).toNat := by omega
      rw [if_pos h0, if_pos (by omega), List.singleton_append, hmod]
      apply readTag_short (by omega)
      rw [← intTag_of_neg (w := 1) (by omega) hneg]
      unfold shortTag
      rw [if_neg (by omega), if_neg (by omega), if_neg (by omega), if_neg (by omega), if_neg (by omega),
        if_neg (by omega), if_neg (by omega), if_pos (by omega)]
    · rw [if_neg h0]
      by_cases h1 : -2 ^ 7 ≤ i
      · rw [if_pos h1, ← intTag_of_neg (w := 1) (by omega) hneg]
        exact readTag_wide rfl rfl (by omega) rest
      rw [if_neg h1]
      by_cases h2 : -2 ^ 15 ≤ i
      · rw [if_pos h2, ← intTag_of_neg (w := 2) (by omega) hneg]
        exact readTag_wide rfl rfl (by omega) rest
      rw [if_neg h2]
      by_cases h3 : -2 ^ 31 ≤ i
      · rw [if_pos h3, ← intTag_of_neg (w := 4) (by omega) hneg]
        exact readTag_wide rfl rfl (by omega) rest
      rw [if_neg h3, ← intTag_of_neg (w := 8) (by omega) hneg]
      exact readTag_wide rfl rfl (by omega) rest
  · have hnode : Tag.leaf (MpackNode.ofInteger i) = uintTag i.toNat :=
      congrArg Tag.leaf (if_pos (by omega))
    rw [hnode, if_pos (by omega)]
    by_cases h0 : i ≤ 127
    · have hmod : (i % 256).toNat = i.toNat := by omega
      rw [if_pos h0, List.singleton_append, hmod]
      apply readTag_short (by omega)
      exact if_pos (by omega)
    rw [if_neg h0]
    by_cases h1 : i < 2 ^ 8
    · rw [if_pos h1]
      exact readTag_wide rfl rfl (by omega) rest
    rw [if_neg h1]
    by_cases h2 : i < 2 ^ 16
    · rw [if_pos h2]
      exact readTag_wide rfl rfl (by omega) rest
    rw [if_neg h2]
    by_cases h3 : i < 2 ^ 32
    · rw [if_pos h3]
      exact readTag_wide rfl rfl (by omega) rest
    rw [if_neg h3]
    exact readTag_wide rfl rfl (by omega) rest

theorem readTag_encodeStr {n : Nat} (h : n < 2 ^ 32) (rest : Bytes) :
    readTag (encodeStr n ++ rest) = some (.str n, rest) := by
  unfold encodeStr
  split
  · have hshort : shortTag (0xa0 + n) = some (.str n) := by
      unfold shortTag
      rw [if_neg (by omega), if_neg (by omega), if_neg (by omega), if_pos (by omega),
        Nat.add_sub_cancel_left]
    exact readTag_short (by omega) hshort rest
  split
  · exact readTag_wide rfl rfl (by omega) rest
  split
  · exact readTag_wide rfl rfl (by omega) rest
  · exact readTag_wide rfl rfl (by omega) rest

theorem readTag_encodeArray {n : Nat} (h : n < 2 ^ 32) (rest : Bytes) :
    readTag (encodeArray n ++ rest) = some (.array n, rest) := by
  unfold encodeArray
  split
  · have hshort : shortTag (0x90 + n) = some (.array n) := by
      unfold shortTag
      rw [if_neg (by omega), if_neg (by omega), if_pos (by omega), Nat.add_sub_cancel_left]
    exact readTag_short (by omega) hshort rest
  split
  · exact readTag_wide rfl rfl (by omega) rest
  · exact readTag_wide rfl rfl (by omega) rest

theorem readTag_encodeMap {n : Nat} (h : n < 2 ^ 32) (rest : Bytes) :
    readTag (encodeMap n ++ rest) = some (.map n, rest) := by
  unfold encodeMap
  split
  · have hshort : shortTag (0x80 + n) = some (.map n) := by
      unfold shortTag
      rw [if_neg (by omega), if_pos (by omega), Nat.add_sub_cancel_left]
    exact readTag_short (by omega) hshort rest
  split
  · exact readTag_wide rfl rfl (by omega) rest
  · exact readTag_wide rfl rfl (by omega) rest

/-! ## What was written is read -/

theorem write_append (cs ds : List MpackCall) : write (cs ++ ds) = write cs ++ write ds :=
  List.flatMap_append

/-- A leaf takes one round. -/
theorem parseNode_leaf {fuel : Nat} (hf : 0 < fuel) {bs rest : Bytes} {n : MpackNode}
    (h : readTag bs = some (.leaf n, rest)) : parseNode fuel bs = some (n, rest) := by
  obtain ⟨fuel, rfl⟩ : ∃ f, fuel = f + 1 := ⟨fuel - 1, by omega⟩
  simp only [parseNode, h, Option.bind_some]

theorem length_pos_of_readTag {bs : Bytes} {x : Tag × Bytes} (h : readTag bs = some x) :
    0 < bs.length := by
  cases bs with
  | nil => cases h
  | cons b bs => exact Nat.succ_pos _

mutual

theorem parseNode_write : ∀ {cs : List MpackCall} {n : MpackNode}, Writes cs n → 0 < (write cs).length ∧
    ∀ fuel rest, (write cs).length ≤ fuel → parseNode fuel (write cs ++ rest) = some (n, rest)
  | _, _, .nil => ⟨by decide, fun fuel rest hf => parseNode_leaf hf rfl⟩
  | _, _, .bool b => by
    cases b
    · exact ⟨by decide, fun fuel rest hf => parseNode_leaf hf rfl⟩
    · exact ⟨by decide, fun fuel rest hf => parseNode_leaf hf rfl⟩
  | _, _, .i32 i => by
    have hread := readTag_encodeInt (i := i.toInt) (by have := i.le_toInt; omega)
      (by have := i.toInt_lt; omega)
    simp only [write, List.flatMap_singleton, encode]
    have hpos := length_pos_of_readTag (hread [])
    rw [List.append_nil] at hpos
    exact ⟨hpos, fun fuel rest hf => parseNode_leaf (Nat.lt_of_lt_of_le hpos hf) (hread rest)⟩
  | _, _, .i64 i => by
    have hread := readTag_encodeInt (i := i.toInt) i.le_toInt (by have := i.toInt_lt; omega)
    simp only [write, List.flatMap_singleton, encode]
    have hpos := length_pos_of_readTag (hread [])
    rw [List.append_nil] at hpos
    exact ⟨hpos, fun fuel rest hf => parseNode_leaf (Nat.lt_of_lt_of_le hpos hf) (hread rest)⟩
  | _, _, .u64 u => by
    have hread := readTag_encodeInt (i := u.toNat) (by omega) (by have := u.toNat_lt; omega)
    rw [MpackNode.ofInteger, if_pos (by omega), Int.toNat_natCast, UInt64.ofNat_toNat] at hread
    simp only [write, List.flatMap_singleton, encode]
    have hpos := length_pos_of_readTag (hread [])
    rw [List.append_nil] at hpos
    exact ⟨hpos, fun fuel rest hf => parseNode_leaf (Nat.lt_of_lt_of_le hpos hf) (hread rest)⟩
  | _, _, .double bits => by
    simp only [write, List.flatMap_singleton, encode, List.length_cons]
    refine ⟨Nat.succ_pos _, fun fuel rest hf => parseNode_leaf (by omega) ?_⟩
    have hb := bits.toNat_lt
    have hread := readTag_wide (b := 0xcb) (w := 8) (n := bits.toNat) rfl rfl (by omega) rest
    rw [UInt64.ofNat_toNat] at hread
    exact hread
  | _, _, .str size => by
    rename_i s
    simp only [write, List.flatMap_singleton, encode, List.append_assoc]
    have hread := readTag_encodeStr size
    have hpos := length_pos_of_readTag (hread [])
    rw [List.append_nil] at hpos
    refine ⟨by rw [List.length_append]; omega, fun fuel rest hf => ?_⟩
    obtain ⟨fuel, rfl⟩ : ∃ f, fuel = f + 1 := ⟨fuel - 1, by rw [List.length_append] at hf; omega⟩
    simp only [parseNode, hread, Option.bind_some, List.length_append, Nat.le_add_right, if_true,
      List.take_left, List.drop_left]
  | _, _, .array count len items => by
    rename_i cs ns
    have hread := readTag_encodeArray count.toNat_lt
    have hpos := length_pos_of_readTag (hread [])
    rw [List.append_nil] at hpos
    have hw : write (.startArray count :: (cs ++ [.finishArray])) = encodeArray count.toNat ++ write cs := by
      simp [write, encode]
    rw [hw, List.length_append]
    refine ⟨by omega, fun fuel rest hf => ?_⟩
    obtain ⟨fuel, rfl⟩ : ∃ f, fuel = f + 1 := ⟨fuel - 1, by omega⟩
    have hitems := many_write items fuel rest (by omega)
    rw [← len] at hitems
    simp only [List.append_assoc, parseNode, hread, Option.bind_some, hitems, Option.map_some]
  | _, _, .map count len pairs => by
    rename_i cs ps
    have hread := readTag_encodeMap count.toNat_lt
    have hpos := length_pos_of_readTag (hread [])
    rw [List.append_nil] at hpos
    have hw : write (.startMap count :: (cs ++ [.finishMap])) = encodeMap count.toNat ++ write cs := by
      simp [write, encode]
    rw [hw, List.length_append]
    refine ⟨by omega, fun fuel rest hf => ?_⟩
    obtain ⟨fuel, rfl⟩ : ∃ f, fuel = f + 1 := ⟨fuel - 1, by omega⟩
    have hpairs := manyPairs_write pairs fuel rest (by omega)
    rw [← len] at hpairs
    simp only [List.append_assoc, parseNode, hread, Option.bind_some, hpairs, Option.map_some]

theorem many_write : ∀ {cs : List MpackCall} {ns : List MpackNode}, WritesItems cs ns → ∀ fuel rest,
    (write cs).length ≤ fuel → many (parseNode fuel) ns.length (write cs ++ rest) = some (ns, rest)
  | _, _, .nil, _, _, _ => rfl
  | _, _, .cons item items, fuel, rest, hf => by
    rw [write_append, List.length_append] at hf
    have hitem := (parseNode_write item).2 fuel
    have hitems := many_write items fuel rest (by omega)
    simp only [write_append, List.append_assoc, List.length_cons, many, hitem _ (by omega), Option.bind_some,
      hitems, Option.map_some]

theorem manyPairs_write : ∀ {cs : List MpackCall} {ps : List (MpackNode × MpackNode)}, WritesPairs cs ps →
    ∀ fuel rest, (write cs).length ≤ fuel →
      many (pair (parseNode fuel)) ps.length (write cs ++ rest) = some (ps, rest)
  | _, _, .nil, _, _, _ => rfl
  | _, _, .cons key value pairs, fuel, rest, hf => by
    rw [write_append, write_append, List.length_append, List.length_append] at hf
    have hkey := (parseNode_write key).2 fuel
    have hvalue := (parseNode_write value).2 fuel
    have hpairs := manyPairs_write pairs fuel rest (by omega)
    simp only [write_append, List.append_assoc, List.length_cons, many, pair, hkey _ (by omega),
      Option.bind_some, hvalue _ (by omega), hpairs, Option.map_some]

end

theorem mpack_lawful : mpack.Lawful where
  write_ne_nil cs n h := List.length_pos_iff.mp (parseNode_write h).1
  parse_write cs n rest h := by
    have hread := (parseNode_write h).2 ((write cs ++ rest).length + 1) rest (by
      rw [List.length_append]
      omega)
    have hlen : (write cs ++ rest).length - rest.length = (write cs).length := by
      rw [List.length_append]
      omega
    simp only [mpack, parse, hread, Option.map_some, hlen]
  parse_prefix cs n p h hp hne := by
    -- a shorter text that parses would parse the same with the rest behind it
    obtain ⟨more, hmore⟩ := hp
    have hmore' : p ++ more = write cs := hmore
    cases hread : parseNode (p.length + 1) p with
    | none => simp only [mpack, parse, hread, Option.map_none]
    | some x =>
      obtain ⟨n', r⟩ := x
      have hlen : p.length + 1 ≤ (write cs).length + 1 := by
        rw [← hmore', List.length_append]
        omega
      have hall := parseNode_extends hlen _ _ _ more hread
      have hwhole := (parseNode_write h).2 ((write cs).length + 1) [] (Nat.le_succ _)
      rw [List.append_nil] at hwhole
      rw [hmore', hwhole, Option.some.injEq, Prod.mk.injEq] at hall
      have hnil : more = [] := (List.append_eq_nil_iff.mp hall.2.symm).2
      rw [hnil, List.append_nil] at hmore
      exact absurd hmore hne

/-- A cut inside the third value of a stream, and one value with a byte after it. -/
theorem msgpack_streams_torn :
    fromMsgpackStream mpack 100 ((toMsgpack mpack (.object [([97], .list [.int64 5, .double 0])]) ++
      toMsgpack mpack .null ++ toMsgpack mpack (.string [0, 1, 2])).take 16) =
        some (.list [.object [([97], .list [.int32 5, .double 0])], .null]) ∧
      fromMsgpack mpack (toMsgpack mpack (.uint64 9223372036854775808) ++ [0]) = .null := by
  have hkeyed : ObjectMap.Keyed [(([97] : Bytes), Value.list [.int64 5, .double 0])] :=
    ⟨by simp, by simp⟩
  have hobject : Encodable (.object [([97], .list [.int64 5, .double 0])]) := by
    refine .object (by decide) hkeyed (by simp) ?_
    intro p hp
    rw [List.mem_singleton.mp hp]
    refine .list (by decide) ?_
    intro v hv
    simp only [List.mem_cons, List.not_mem_nil, or_false] at hv
    rcases hv with rfl | rfl
    · exact .int64 5
    · exact .double 0
  have hvalues : ∀ v ∈ [Value.object [([97], .list [.int64 5, .double 0])], .null, .string [0, 1, 2]],
      Encodable v ∧ v.height ≤ 64 := by
    intro v hv
    simp only [List.mem_cons, List.not_mem_nil, or_false] at hv
    rcases hv with rfl | rfl | rfl
    · exact ⟨hobject, by decide⟩
    · exact ⟨.null, by decide⟩
    · exact ⟨.string (by decide), by decide⟩
  have hlaws := msgpack_streams mpack mpack_lawful
  refine ⟨?_, (hlaws.2 _ (.uint64 _) (by decide)).2 [0] (by simp)⟩
  have hcut := hlaws.1 _ hvalues 16 100 (by decide)
  simp only [List.map_cons, List.map_nil, List.flatten_cons, List.flatten_nil, List.append_nil] at hcut
  rw [List.append_assoc, hcut]
  rfl

end SentryNative.Msgpack.Format
