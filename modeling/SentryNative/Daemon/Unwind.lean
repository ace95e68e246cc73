import SentryNative.Daemon.Maps

/-!
# Frame-pointer unwinding

The daemon walks the frame records in the captured stack of a thread. The walk may neither
read outside the captured window nor write past the array of frames it collects; both are
faults here.
-/

namespace SentryNative.Daemon

open CLib

def maxStackFrames : Nat := 128

inductive Target where
  | x8664
  | aarch64
  | macosArm64
  | other64
  deriving DecidableEq, Repr

/-- `SENTRY__STRIP_PAC`. -/
def stripPac (target : Target) (addr : UInt64) : UInt64 :=
  match target with
  | .macosArm64 => addr &&& 0x00007FFFFFFFFFFF
  | _ => addr

def isValidCodeAddr (target : Target) (addr : UInt64) : Bool :=
  if addr < 0x1000 then false
  else
    match target with
    | .x8664 => !decide (addr > 0x00007FFFFFFFFFFF)
    | .aarch64 | .macosArm64 => !decide (addr ≥ 0xFFFF000000000000)
    | .other64 => true

/-- The captured stack memory of a thread. -/
structure Window where
  start : UInt64
  bytes : Bytes
  fits : bytes.length < 2 ^ 64

def Window.size (w : Window) : UInt64 := UInt64.ofNat w.bytes.length

inductive Fault where
  | read
  | write
  | unfinished
  deriving DecidableEq, Repr

def pointerSize : Nat := 8

def littleEndian (bs : Bytes) : UInt64 := UInt64.ofNat (bs.foldr (fun b n => b.toNat + 256 * n) 0)

def wordAt (bs : Bytes) (offset : Nat) : UInt64 := littleEndian ((bs.drop offset).take pointerSize)

/-- `memcpy` of one word out of the buffer. -/
def copyWord (bs : Bytes) (offset : Nat) : Except Fault UInt64 :=
  if offset + pointerSize ≤ bs.length then .ok (wordAt bs offset) else .error .read

def readStackValue (w : Window) (addr : UInt64) : Except Fault (Option UInt64) :=
  if addr < w.start then .ok none
  else
    let offset := addr - w.start
    if offset > w.size ∨ w.size - offset < 8 then .ok none
    else (copyWord w.bytes offset.toNat).map some

inductive Trust where
  | context
  | fp
  deriving DecidableEq, Repr

structure Frame where
  instructionAddr : UInt64
  trust : Trust
  package : Option Bytes
  function : Option Bytes
  deriving DecidableEq, Repr

/-- `temp_frames[frame_count] = …; frame_count++`. -/
def pushFrame (frames : List Frame) (f : Frame) : Except Fault (List Frame) :=
  if frames.length < maxStackFrames then .ok (frames ++ [f]) else .error .write

section
variable (target : Target) (ms : List Module) (symbol : UInt64 → Option Bytes)

def newFrame (trust : Trust) (addr : UInt64) : Frame :=
  { instructionAddr := addr, trust, package := enrichFrameWithModuleInfo ms addr, function := symbol addr }

/-- The loop over the frame records. -/
def walkFrames (w : Window) : Nat → Nat → UInt64 → List Frame → Except Fault (List Frame)
  | 0, _, _, _ => .error .unfinished
  | fuel + 1, walkCount, currentFp, frames => do
    if walkCount < maxStackFrames - frames.length then
      match ← readStackValue w currentFp with
      | none => return frames
      | some savedFp =>
        match ← readStackValue w (currentFp + 8) with
        | none => return frames
        | some returnAddr =>
          let savedFp := stripPac target savedFp
          let returnAddr := stripPac target returnAddr
          if !isValidCodeAddr target returnAddr then return frames
          let frames ← pushFrame frames (newFrame ms symbol .fp returnAddr)
          if savedFp = 0 ∨ savedFp = currentFp then return frames
          if savedFp < currentFp then return frames
          walkFrames w fuel (walkCount + 1) savedFp frames
    else return frames

/-- The crashing frame. -/
def addContextFrame (ip : UInt64) : Except Fault (List Frame) :=
  if ip ≠ 0 ∧ isValidCodeAddr target ip then pushFrame [] (newFrame ms symbol .context ip) else .ok []

def collectFrames (stack : Option Window) (ip fp : UInt64) : Except Fault (List Frame) := do
  let frames ← addContextFrame target ms symbol ip
  match stack with
  | none => return frames
  | some w =>
    if fp ≠ 0 ∧ frames.length < maxStackFrames then
      walkFrames target ms symbol w (maxStackFrames + 1) 0 fp frames
    else return frames

/-- The frames, outermost caller first; no stack trace without a frame. -/
def buildStacktraceForThread (stack : Option Window) (ip fp : UInt64) : Except Fault (Option (List Frame)) := do
  let frames ← collectFrames target ms symbol stack ip fp
  if frames.length = 0 then return none
  return some frames.reverse

end

/-! ## Frame records -/

/-- The word at an address lies in the window. -/
structure Window.HasWord (w : Window) (addr : Nat) (value : UInt64) : Prop where
  isAddress : addr < 2 ^ 64
  start : w.start.toNat ≤ addr
  stop : addr + pointerSize ≤ w.start.toNat + w.bytes.length
  value : wordAt w.bytes (addr - w.start.toNat) = value

/-- A saved frame pointer and the return address beside it. -/
structure Window.HasRecord (w : Window) (target : Target) (fp savedFp returnAddr : UInt64) : Prop where
  saved : ∃ raw, w.HasWord fp.toNat raw ∧ stripPac target raw = savedFp
  return_ : ∃ raw, w.HasWord (fp.toNat + pointerSize) raw ∧ stripPac target raw = returnAddr
  valid : isValidCodeAddr target returnAddr = true

/-- The return addresses of the longest chain of records that starts at a frame pointer and
goes up the stack. -/
inductive Chain (target : Target) (w : Window) : UInt64 → List UInt64 → Prop
  | none {fp : UInt64} : (¬∃ savedFp returnAddr, w.HasRecord target fp savedFp returnAddr) → Chain target w fp []
  | last {fp savedFp returnAddr : UInt64} : w.HasRecord target fp savedFp returnAddr → ¬fp < savedFp →
      Chain target w fp [returnAddr]
  | next {fp savedFp returnAddr : UInt64} {rest : List UInt64} : w.HasRecord target fp savedFp returnAddr →
      fp < savedFp → Chain target w savedFp rest → Chain target w fp (returnAddr :: rest)

theorem Window.HasWord.eq {w : Window} {addr : Nat} {v v' : UInt64} (h : w.HasWord addr v) (h' : w.HasWord addr v') :
    v = v' := h.value.symm.trans h'.value

theorem Window.HasRecord.eq {w : Window} {target : Target} {fp saved saved' ret ret' : UInt64}
    (h : w.HasRecord target fp saved ret) (h' : w.HasRecord target fp saved' ret') : saved = saved' ∧ ret = ret' := by
  obtain ⟨a, ha, rfl⟩ := h.saved
  obtain ⟨a', ha', rfl⟩ := h'.saved
  obtain ⟨b, hb, rfl⟩ := h.return_
  obtain ⟨b', hb', rfl⟩ := h'.return_
  rw [ha.eq ha', hb.eq hb']
  exact ⟨rfl, rfl⟩

theorem Chain.eq {target : Target} {w : Window} {fp : UInt64} {rets rets' : List UInt64}
    (h : Chain target w fp rets) (h' : Chain target w fp rets') : rets = rets' := by
  induction h generalizing rets' with
  | none hno =>
    cases h' with
    | none => rfl
    | last hrec => exact absurd ⟨_, _, hrec⟩ hno
    | next hrec => exact absurd ⟨_, _, hrec⟩ hno
  | last hrec hend =>
    cases h' with
    | none hno => exact absurd ⟨_, _, hrec⟩ hno
    | last hrec' => rw [(hrec.eq hrec').2]
    | next hrec' hup => exact absurd ((hrec.eq hrec').1 ▸ hup) hend
  | next hrec hup _ ih =>
    cases h' with
    | none hno => exact absurd ⟨_, _, hrec⟩ hno
    | last hrec' hend => exact absurd ((hrec.eq hrec').1 ▸ hup) hend
    | next hrec' _ hrest =>
      obtain ⟨rfl, rfl⟩ := hrec.eq hrec'
      rw [ih hrest]

/-- Frame pointers go up, so every chain ends. -/
theorem Chain.exists (target : Target) (w : Window) (fp : UInt64) : ∃ rets, Chain target w fp rets := by
  induction hn : 2 ^ 64 - fp.toNat using Nat.strong_induction_on generalizing fp with
  | _ n ih =>
    by_cases hrec : ∃ savedFp returnAddr, w.HasRecord target fp savedFp returnAddr
    · obtain ⟨savedFp, returnAddr, hrec⟩ := hrec
      by_cases hup : fp < savedFp
      · have hlt := UInt64.lt_iff_toNat_lt.mp hup
        have hbound := savedFp.toNat_lt
        obtain ⟨rest, hrest⟩ := ih (2 ^ 64 - savedFp.toNat) (by omega) savedFp rfl
        exact ⟨_, .next hrec hup hrest⟩
      · exact ⟨_, .last hrec hup⟩
    · exact ⟨_, .none hrec⟩

/-! ## The walk follows the chain -/

theorem Window.size_toNat (w : Window) : w.size.toNat = w.bytes.length := by
  unfold Window.size
  rw [UInt64.toNat_ofNat_of_lt' w.fits]

/-- A word is read if and only if it lies in the window, and nothing else is touched. -/
theorem readStackValue_spec (w : Window) (addr : UInt64) :
    (∃ v, readStackValue w addr = .ok (some v) ∧ w.HasWord addr.toNat v) ∨
      readStackValue w addr = .ok none ∧ ¬∃ v, w.HasWord addr.toNat v := by
  unfold readStackValue
  by_cases hlow : addr < w.start
  · right
    refine ⟨if_pos hlow, ?_⟩
    rintro ⟨v, hv⟩
    have hstart := hv.start
    rw [UInt64.lt_iff_toNat_lt] at hlow
    omega
  · have hoffset : (addr - w.start).toNat = addr.toNat - w.start.toNat :=
      UInt64.toNat_sub_of_le _ _ (UInt64.not_lt.mp hlow)
    rw [UInt64.lt_iff_toNat_lt] at hlow
    simp only [if_neg (UInt64.lt_iff_toNat_lt.not.mpr hlow)]
    by_cases hout : addr - w.start > w.size ∨ w.size - (addr - w.start) < 8
    · right
      refine ⟨if_pos hout, ?_⟩
      rintro ⟨v, hv⟩
      have hstop := hv.stop
      unfold pointerSize at hstop
      obtain hbig | hshort := hout
      · rw [gt_iff_lt, UInt64.lt_iff_toNat_lt, hoffset, w.size_toNat] at hbig
        omega
      · rw [UInt64.lt_iff_toNat_lt, UInt64.toNat_sub_of_le _ _ ?_, hoffset, w.size_toNat] at hshort
        · simp only [UInt64.reduceToNat] at hshort
          omega
        · rw [UInt64.le_iff_toNat_le, hoffset, w.size_toNat]
          omega
    · left
      have hin := hout
      rw [not_or, gt_iff_lt, UInt64.lt_iff_toNat_lt, hoffset, w.size_toNat] at hin
      obtain ⟨hbig, hshort⟩ := hin
      rw [UInt64.lt_iff_toNat_lt, UInt64.toNat_sub_of_le _ _ ?_, hoffset, w.size_toNat] at hshort
      · simp only [UInt64.reduceToNat] at hshort
        refine ⟨wordAt w.bytes (addr.toNat - w.start.toNat), ?_, addr.toNat_lt, by omega, ?_, rfl⟩
        · rw [if_neg hout, hoffset]
          unfold copyWord pointerSize
          rw [if_pos (by omega)]
          rfl
        · unfold pointerSize
          omega
      · rw [UInt64.le_iff_toNat_le, hoffset, w.size_toNat]
        omega

theorem readStackValue_word {w : Window} {addr v : UInt64} (h : w.HasWord addr.toNat v) :
    readStackValue w addr = .ok (some v) := by
  obtain ⟨v', hread, hv'⟩ | ⟨-, hno⟩ := readStackValue_spec w addr
  · rw [hread, h.eq hv']
  · exact absurd ⟨v, h⟩ hno

/-- Past the end of the address space there is no second word, and the sum that wraps finds none. -/
theorem readStackValue_next {w : Window} {fp v : UInt64} (h : w.HasWord fp.toNat v) :
    (∃ r, readStackValue w (fp + 8) = .ok (some r) ∧ w.HasWord (fp.toNat + pointerSize) r) ∨
      readStackValue w (fp + 8) = .ok none ∧ ¬∃ r, w.HasWord (fp.toNat + pointerSize) r := by
  have hsum : (fp + 8).toNat = (fp.toNat + 8) % 2 ^ 64 := UInt64.toNat_add fp 8
  have hfits := w.fits
  have hfp := fp.toNat_lt
  by_cases hwrap : fp.toNat + 8 < 2 ^ 64
  · rw [Nat.mod_eq_of_lt hwrap] at hsum
    have hspec := readStackValue_spec w (fp + 8)
    rw [hsum] at hspec
    exact hspec
  · obtain ⟨r, -, hr⟩ | ⟨hread, -⟩ := readStackValue_spec w (fp + 8)
    · have hstart := hr.start
      have hstop := h.stop
      unfold pointerSize at hstop
      omega
    · right
      refine ⟨hread, ?_⟩
      rintro ⟨r, hr⟩
      exact hwrap hr.isAddress

section
variable {target : Target} {ms : List Module} {symbol : UInt64 → Option Bytes} {w : Window}

theorem walkFrames_none {fp : UInt64} (h : ¬∃ savedFp returnAddr, w.HasRecord target fp savedFp returnAddr)
    (fuel walkCount : Nat) (frames : List Frame) :
    walkFrames target ms symbol w (fuel + 1) walkCount fp frames = .ok frames := by
  unfold walkFrames
  split
  · obtain ⟨saved, hread, hsaved⟩ | ⟨hread, -⟩ := readStackValue_spec w fp
    · rw [hread]
      obtain ⟨ret, hread', hret⟩ | ⟨hread', -⟩ := readStackValue_next hsaved
      · have hinvalid : isValidCodeAddr target (stripPac target ret) = false := by
          by_contra hvalid
          exact h ⟨_, _, ⟨saved, hsaved, rfl⟩, ⟨ret, hret, rfl⟩, by simpa using hvalid⟩
        simp only [bind, Except.bind, hread', hinvalid]
        rfl
      · simp only [bind, Except.bind, hread']
        rfl
    · rw [hread]
      rfl
  · rfl

theorem walkFrames_record {fp savedFp returnAddr : UInt64} (h : w.HasRecord target fp savedFp returnAddr)
    {walkCount : Nat} {frames : List Frame} (hroom : walkCount < maxStackFrames - frames.length) (fuel : Nat) :
    walkFrames target ms symbol w (fuel + 1) walkCount fp frames =
      if fp < savedFp then
        walkFrames target ms symbol w fuel (walkCount + 1) savedFp (frames ++ [newFrame ms symbol .fp returnAddr])
      else .ok (frames ++ [newFrame ms symbol .fp returnAddr]) := by
  obtain ⟨saved, hsaved, rfl⟩ := h.saved
  obtain ⟨ret, hret, rfl⟩ := h.return_
  have hnext : readStackValue w (fp + 8) = .ok (some ret) := by
    obtain ⟨r, hread, hr⟩ | ⟨-, hno⟩ := readStackValue_next hsaved
    · rw [hread, hret.eq hr]
    · exact absurd ⟨ret, hret⟩ hno
  have hpush : pushFrame frames (newFrame ms symbol .fp (stripPac target ret)) =
      .ok (frames ++ [newFrame ms symbol .fp (stripPac target ret)]) := if_pos (by omega)
  conv_lhs => unfold walkFrames
  rw [if_pos hroom, readStackValue_word hsaved]
  simp only [bind, Except.bind, hnext, h.valid, hpush]
  by_cases hup : fp < stripPac target saved
  · have hzero : ¬(stripPac target saved = 0 ∨ stripPac target saved = fp) := by
      rintro (hzero | heq)
      · rw [hzero] at hup
        exact absurd hup (UInt64.not_lt.mpr UInt64.zero_le)
      · rw [heq] at hup
        exact absurd hup (UInt64.lt_irrefl fp)
    have hback : ¬stripPac target saved < fp := UInt64.lt_asymm hup
    simp [hzero, hback, hup]
  · simp only [hup, if_false]
    by_cases hzero : stripPac target saved = 0 ∨ stripPac target saved = fp
    · simp [hzero, pure, Except.pure]
    · have hback : stripPac target saved < fp := by
        rw [not_or] at hzero
        exact UInt64.lt_of_le_of_ne (UInt64.not_lt.mp hup) hzero.2
      simp [hzero, hback, pure, Except.pure]

theorem walkFrames_full {walkCount : Nat} {frames : List Frame} (hfull : ¬walkCount < maxStackFrames - frames.length)
    (fuel : Nat) (fp : UInt64) : walkFrames target ms symbol w (fuel + 1) walkCount fp frames = .ok frames := by
  unfold walkFrames
  rw [if_neg hfull]
  rfl

/-- The records the loop still visits: both counters move at every record. -/
def walksLeft (walkCount frameCount : Nat) : Nat := (maxStackFrames - frameCount - walkCount + 1) / 2

theorem walksLeft_full {walkCount frameCount : Nat} (h : ¬walkCount < maxStackFrames - frameCount) :
    walksLeft walkCount frameCount = 0 := by
  unfold walksLeft
  omega

theorem walksLeft_succ {walkCount frameCount : Nat} (h : walkCount < maxStackFrames - frameCount) :
    walksLeft walkCount frameCount = walksLeft (walkCount + 1) (frameCount + 1) + 1 := by
  unfold walksLeft
  omega

theorem walkFrames_chain {fp : UInt64} {rets : List UInt64} (h : Chain target w fp rets) (fuel walkCount : Nat)
    (frames : List Frame) (hfuel : walksLeft walkCount frames.length ≤ fuel) :
    walkFrames target ms symbol w (fuel + 1) walkCount fp frames = .ok (frames ++
      (rets.take (walksLeft walkCount frames.length)).map (newFrame ms symbol .fp)) := by
  induction h generalizing fuel walkCount frames with
  | none hno =>
    rw [walkFrames_none hno]
    simp
  | last hrec hend =>
    by_cases hroom : walkCount < maxStackFrames - frames.length
    · rw [walkFrames_record hrec hroom, if_neg hend, walksLeft_succ hroom]
      simp
    · rw [walkFrames_full hroom, walksLeft_full hroom]
      simp
  | @next fp savedFp returnAddr rest hrec hup _ ih =>
    by_cases hroom : walkCount < maxStackFrames - frames.length
    · have hlength : (frames ++ [newFrame ms symbol .fp returnAddr]).length = frames.length + 1 := by simp
      rw [walksLeft_succ hroom] at hfuel
      obtain ⟨fuel, rfl⟩ := Nat.exists_eq_add_of_lt (Nat.lt_of_succ_le (Nat.le_trans (Nat.le_add_left 1 _) hfuel))
      rw [walkFrames_record hrec hroom, if_pos hup, ih _ _ _ (by rw [hlength]; omega), hlength, walksLeft_succ hroom]
      simp
    · rw [walkFrames_full hroom, walksLeft_full hroom]
      simp

end

/-! ## The whole stack -/

section
variable (target : Target) (ms : List Module) (symbol : UInt64 → Option Bytes)

def contextFrames (ip : UInt64) : List Frame :=
  if isValidCodeAddr target ip then [newFrame ms symbol .context ip] else []

def stackOf (frames : List Frame) : Option (List Frame) := if frames.length = 0 then none else some frames.reverse

/-- The stack trace the chain stands for, cut off at the most frames there may be. -/
def wholeStack (ip : UInt64) (rets : List UInt64) : Option (List Frame) :=
  stackOf ((contextFrames target ms symbol ip ++ rets.map (newFrame ms symbol .fp)).take maxStackFrames)

theorem stackOf_injective : Function.Injective stackOf := by
  intro a b h
  unfold stackOf at h
  split at h
  · split at h
    · simp_all
    · cases h
  · split at h
    · cases h
    · exact List.reverse_inj.mp (Option.some.inj h)

theorem contextFrames_length (ip : UInt64) : (contextFrames target ms symbol ip).length ≤ 1 := by
  unfold contextFrames
  split <;> simp

theorem addContextFrame_eq (ip : UInt64) :
    addContextFrame target ms symbol ip = .ok (contextFrames target ms symbol ip) := by
  unfold addContextFrame contextFrames
  by_cases hvalid : isValidCodeAddr target ip = true
  · have hzero : ip ≠ 0 := by
      rintro rfl
      cases target <;> cases hvalid
    rw [if_pos ⟨hzero, hvalid⟩, if_pos hvalid]
    rfl
  · rw [if_neg (fun h => hvalid h.2), if_neg hvalid]

/-- At most sixty-four records are visited. -/
theorem collectFrames_chain {w : Window} {fp : UInt64} {rets : List UInt64} (h : Chain target w fp rets)
    (ip : UInt64) :
    collectFrames target ms symbol (some w) ip fp = .ok (contextFrames target ms symbol ip ++
      if fp = 0 then [] else (rets.take 64).map (newFrame ms symbol .fp)) := by
  have hlength := contextFrames_length target ms symbol ip
  unfold collectFrames
  rw [addContextFrame_eq]
  simp only [bind, Except.bind]
  by_cases hfp : fp = 0
  · simp [hfp, pure, Except.pure]
  · have hleft : walksLeft 0 (contextFrames target ms symbol ip).length = 64 := by
      unfold walksLeft maxStackFrames
      omega
    rw [if_pos ⟨hfp, by unfold maxStackFrames; omega⟩, walkFrames_chain h _ _ _ (by rw [hleft]; decide), hleft,
      if_neg hfp]

theorem buildStacktraceForThread_chain {w : Window} {fp : UInt64} {rets : List UInt64} (h : Chain target w fp rets)
    (ip : UInt64) :
    buildStacktraceForThread target ms symbol (some w) ip fp = .ok (stackOf (contextFrames target ms symbol ip ++
      if fp = 0 then [] else (rets.take 64).map (newFrame ms symbol .fp))) := by
  unfold buildStacktraceForThread
  rw [collectFrames_chain target ms symbol h]
  generalize contextFrames target ms symbol ip ++ _ = frames
  simp only [bind, Except.bind, stackOf]
  split <;> rfl

/-- The walk ends without a fault. It gives the whole stack exactly when the chain has at
most sixty-four records and does not start at address zero. -/
theorem buildStacktraceForThread_whole (w : Window) (ip fp : UInt64) :
    (∃ stack, buildStacktraceForThread target ms symbol (some w) ip fp = .ok stack) ∧
      ∃ rets, (∀ rs, Chain target w fp rs ↔ rs = rets) ∧
        (buildStacktraceForThread target ms symbol (some w) ip fp = .ok (wholeStack target ms symbol ip rets) ↔
          (fp ≠ 0 ∨ rets = []) ∧ rets.length ≤ 64) := by
  obtain ⟨rets, hchain⟩ := Chain.exists target w fp
  refine ⟨⟨_, buildStacktraceForThread_chain target ms symbol hchain ip⟩, rets, ?_, ?_⟩
  · intro rs
    constructor
    · exact fun hrs => hrs.eq hchain
    · rintro rfl
      exact hchain
  · have hlength := contextFrames_length target ms symbol ip
    rw [buildStacktraceForThread_chain target ms symbol hchain, wholeStack, Except.ok.injEq, stackOf_injective.eq_iff]
    constructor
    · intro heq
      have hlengths := congrArg List.length heq
      simp only [List.length_append, List.length_take, List.length_map, maxStackFrames] at hlengths
      by_cases hfp : fp = 0
      · simp only [hfp, if_true, List.length_nil] at hlengths
        have hnil : rets.length = 0 := by omega
        exact ⟨.inr (List.length_eq_zero_iff.mp hnil), by omega⟩
      · simp only [hfp, if_false, List.length_map, List.length_take] at hlengths
        exact ⟨.inl hfp, by omega⟩
    · rintro ⟨hfp, hshort⟩
      rw [List.take_of_length_le (l := _ ++ _) (by
        rw [List.length_append, List.length_map]
        unfold maxStackFrames
        omega)]
      congr 1
      split
      · rename_i hzero
        rw [hfp.resolve_left (fun hne => hne hzero)]
        rfl
      · rw [List.take_of_length_le hshort]

end

/-- Sixty-five frame records, each below the next; the last one ends the chain. -/
def ladder : Window where
  start := 0x1000
  bytes := (List.range 65).flatMap (fun n =>
    [if n = 64 then 0 else UInt8.ofNat (16 * (n + 1)), UInt8.ofNat (if n = 64 then 0 else 0x10 + (n + 1) / 16),
      0, 0, 0, 0, 0, 0, 0, 0x20, 0, 0, 0, 0, 0, 0])
  fits := by decide +kernel

def ladderFp (n : Nat) : UInt64 := UInt64.ofNat (0x1000 + 16 * n)

theorem ladderFp_toNat {n : Nat} (h : n < 65) : (ladderFp n).toNat = 0x1000 + 16 * n :=
  UInt64.toNat_ofNat_of_lt' (by show _ < 2 ^ 64; omega)

theorem ladder_record : ∀ n : Fin 65, ladder.HasRecord .x8664 (ladderFp n)
    (if n.val = 64 then 0 else ladderFp (n + 1)) 0x2000 := by
  intro n
  have hwords : wordAt ladder.bytes ((ladderFp n).toNat - 0x1000) = (if n.val = 64 then 0 else ladderFp (n + 1)) ∧
      wordAt ladder.bytes ((ladderFp n).toNat + 8 - 0x1000) = 0x2000 := by
    decide +kernel +revert
  have hlength : ladder.bytes.length = 1040 := by decide +kernel
  have hbounds : 0x1000 ≤ (ladderFp n).toNat ∧ (ladderFp n).toNat + 16 ≤ 0x1000 + ladder.bytes.length := by
    rw [hlength, ladderFp_toNat n.isLt]
    omega
  have hstart : ladder.start.toNat = 0x1000 := rfl
  refine ⟨⟨_, ⟨?_, ?_, ?_, hwords.1⟩, rfl⟩, ⟨_, ⟨?_, ?_, ?_, hwords.2⟩, rfl⟩, by decide⟩ <;>
    simp only [hstart, hlength, pointerSize, Nat.reducePow, Nat.reduceAdd] at * <;> omega

theorem ladder_chain (k : Nat) (hk : k ≤ 64) : Chain .x8664 ladder (ladderFp (64 - k)) (List.replicate (k + 1) 0x2000) := by
  induction k with
  | zero =>
    have hrec := ladder_record 64
    exact .last hrec (by decide)
  | succ k ih =>
    have hrec := ladder_record ⟨64 - (k + 1), by omega⟩
    have hnext : 64 - (k + 1) + 1 = 64 - k := by omega
    simp only [hnext, if_neg (show ¬64 - (k + 1) = 64 by omega)] at hrec
    apply Chain.next hrec _ (ih (by omega))
    have hlt : (ladderFp (64 - (k + 1))).toNat < (ladderFp (64 - k)).toNat := by
      rw [ladderFp_toNat (by omega), ladderFp_toNat (by omega)]
      omega
    exact UInt64.lt_iff_toNat_lt.mpr hlt

/-- The outermost frame of sixty-five is lost. -/
theorem ladder_cut : ∃ rets, Chain .x8664 ladder 0x1000 rets ∧ rets.length = 65 ∧
    buildStacktraceForThread .x8664 [] (fun _ => none) (some ladder) 0x3000 0x1000
      ≠ .ok (wholeStack .x8664 [] (fun _ => none) 0x3000 rets) := by
  have hchain : Chain .x8664 ladder 0x1000 (List.replicate 65 0x2000) := ladder_chain 64 (Nat.le_refl _)
  refine ⟨_, hchain, List.length_replicate, ?_⟩
  rw [buildStacktraceForThread_chain _ _ _ hchain]
  intro h
  have hlength := congrArg List.length (stackOf_injective (Except.ok.inj h))
  have hcontext := contextFrames_length .x8664 [] (fun _ => none) 0x3000
  simp only [List.length_append, List.length_take, List.length_map, List.length_replicate, maxStackFrames,
    if_neg (show ¬(0x1000 : UInt64) = 0 by decide)] at hlength
  omega

end SentryNative.Daemon
