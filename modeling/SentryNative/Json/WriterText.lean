import SentryNative.Json.Writer

/-!
# What the writer's machine writes

Below depth 64 the machine writes the JSON text of the tree cut at depth 63;
from depth 64 on it writes nothing and leaves its state alone. Both need the
depth counter not to wrap.
-/

namespace SentryNative.Json

open CLib JsonWriter

variable (dt : DoubleText)

/-! ## Beyond the last depth -/

theorem writeStart_of_max {jw : JsonWriter} (h : maxDepth ≤ jw.depth)
    (hw : jw.depth + 1 < 2 ^ 32) (b : UInt8) :
    writeStart jw b = { jw with depth := jw.depth + 1 } := by
  have h' : maxDepth ≤ jw.depth + 1 := Nat.le_succ_of_le h
  simp only [writeStart, writeItem_of_max h, Nat.mod_eq_of_lt hw]
  simp [setComma, atMaxDepth, h']

theorem writeEnd_of_max {jw : JsonWriter} (h : maxDepth ≤ jw.depth)
    (hw : jw.depth + 1 < 2 ^ 32) (b : UInt8) :
    writeEnd { jw with depth := jw.depth + 1 } b = jw := by
  have hd : (jw.depth + 1 + 2 ^ 32 - 1) % 2 ^ 32 = jw.depth := by omega
  simp only [writeEnd, hd]
  simp [atMaxDepth, h]

theorem writeItems_of_max {vs : List Value} {jw : JsonWriter}
    (h : ∀ v ∈ vs, writeValue dt v jw = jw) : writeItems dt vs jw = jw := by
  induction vs with
  | nil => rfl
  | cons v vs ih =>
    rw [writeItems, h v (by simp)]
    exact ih fun w hw => h w (List.mem_cons_of_mem v hw)

theorem writePairs_of_max {ps : List (Bytes × Value)} {jw : JsonWriter} (hm : maxDepth ≤ jw.depth)
    (h : ∀ p ∈ ps, writeValue dt p.2 jw = jw) : writePairs dt ps jw = jw := by
  induction ps with
  | nil => rfl
  | cons p ps ih =>
    rw [writePairs, writeKey_of_max hm, h p (by simp)]
    exact ih fun q hq => h q (List.mem_cons_of_mem p hq)

theorem writeValue_of_max (v : Value) : ∀ jw : JsonWriter, maxDepth ≤ jw.depth →
    jw.depth + v.height < 2 ^ 32 → writeValue dt v jw = jw := by
  induction v using Value.tree_induction with
  | null => intro jw h _; exact writeItem_of_max h _
  | bool b => intro jw h _; exact writeItem_of_max h _
  | int32 i => intro jw h _; exact writeItem_of_max h _
  | int64 i => intro jw h _; exact writeItem_of_max h _
  | uint64 u => intro jw h _; exact writeItem_of_max h _
  | double d => intro jw h _; exact writeItem_of_max h _
  | string s => intro jw h _; exact writeItem_of_max h _
  | list vs ih =>
    intro jw h hw
    simp only [Value.height] at hw
    rw [writeValue, writeStart_of_max h (by omega), writeItems_of_max, writeEnd_of_max h (by omega)]
    intro v hv
    have hle := Value.height_le_heightList hv
    exact ih v hv _ (Nat.le_succ_of_le h) (by simp only; omega)
  | object ps ih =>
    intro jw h hw
    simp only [Value.height] at hw
    rw [writeValue, writeStart_of_max h (by omega), writePairs_of_max dt (Nat.le_succ_of_le h),
      writeEnd_of_max h (by omega)]
    intro p hp
    have hle := Value.height_le_heightPairs hp
    exact ih p hp _ (Nat.le_succ_of_le h) (by simp only; omega)

/-! ## The contents of a container -/

/-- Some items of the container at the writer's depth were written. -/
structure WroteItems (jw jw' : JsonWriter) (text : Bytes) : Prop where
  out : jw'.out = jw.out ++ text
  depth : jw'.depth = jw.depth
  key : jw'.lastWasKey = false
  outer : ∀ i, i < jw.depth → jw'.bit i = jw.bit i

/-- A value is written as its cut text, wherever an item may stand. -/
def WritesText (v : Value) : Prop :=
  ∀ jw : JsonWriter, jw.depth < maxDepth → jw.depth + v.height < 2 ^ 32 →
    Wrote jw (writeValue dt v jw) (render (truncate jw.depth v)) ∧
      (writeValue dt v jw).lastWasKey = false

theorem writeItems_wrote {vs : List Value} (h : ∀ v ∈ vs, WritesText dt v) (jw : JsonWriter)
    (hd : jw.depth < maxDepth) (hw : jw.depth + Value.heightList vs < 2 ^ 32)
    (hk : jw.lastWasKey = false) :
    WroteItems jw (writeItems dt vs jw)
      (renderItems (jw.bit jw.depth) (truncateItems jw.depth vs)) := by
  induction vs generalizing jw with
  | nil => exact ⟨by simp [writeItems, truncateItems, renderItems], rfl, hk, fun _ _ => rfl⟩
  | cons v vs ih =>
    simp only [Value.heightList] at hw
    obtain ⟨hv, hvk⟩ := h v (by simp) jw hd (by omega)
    have hb : (writeValue dt v jw).bit jw.depth = true := by rw [hv.comma, hk]; rfl
    have rest := ih (fun w hw => h w (List.mem_cons_of_mem v hw)) (writeValue dt v jw)
      (by rw [hv.depth]; exact hd) (by rw [hv.depth]; omega) hvk
    rw [hv.depth, hb] at rest
    refine ⟨?_, by rw [writeItems, rest.depth, hv.depth], rest.key, ?_⟩
    · rw [writeItems, rest.out, hv.out, hk]
      simp only [truncateItems, renderItems, Bool.not_false, Bool.true_and, List.append_assoc]
    · intro i hi
      rw [writeItems, rest.outer i (by rw [hv.depth]; exact hi), hv.outer i hi]

theorem writePairs_wrote {ps : List (Bytes × Value)} (h : ∀ p ∈ ps, WritesText dt p.2)
    (hz : ∀ p ∈ ps, 0 ∉ p.1) (jw : JsonWriter)
    (hd : jw.depth < maxDepth) (hw : jw.depth + Value.heightPairs ps < 2 ^ 32)
    (hk : jw.lastWasKey = false) :
    WroteItems jw (writePairs dt ps jw)
      (renderPairs (jw.bit jw.depth) (truncatePairs jw.depth ps)) := by
  induction ps generalizing jw with
  | nil => exact ⟨by simp [writePairs, truncatePairs, renderPairs], rfl, hk, fun _ _ => rfl⟩
  | cons p ps ih =>
    obtain ⟨k, v⟩ := p
    simp only [Value.heightPairs] at hw
    obtain ⟨hkey, hkk⟩ := writeKey_wrote hd k
    obtain ⟨hv, hvk⟩ := h (k, v) (by simp) (writeKey jw k) (by rw [hkey.depth]; exact hd)
      (by rw [hkey.depth]; simp only; omega)
    have hb : (writeKey jw k).bit jw.depth = true := by rw [hkey.comma, hk]; rfl
    have hb' : (writeValue dt v (writeKey jw k)).bit jw.depth = true := by
      have := hv.comma
      rw [hkey.depth, hb] at this
      simpa using this
    have hdepth : (writeValue dt v (writeKey jw k)).depth = jw.depth := by
      rw [hv.depth, hkey.depth]
    have rest := ih (fun q hq => h q (List.mem_cons_of_mem _ hq))
      (fun q hq => hz q (List.mem_cons_of_mem _ hq)) (writeValue dt v (writeKey jw k))
      (by rw [hdepth]; exact hd) (by rw [hdepth]; omega) hvk
    rw [hdepth, hb'] at rest
    refine ⟨?_, by rw [writePairs, rest.depth, hdepth], rest.key, ?_⟩
    · rw [writePairs, rest.out, hv.out, hkey.out, hk, hkk, hkey.depth,
        cstr_of_not_mem (hz (k, v) (by simp))]
      simp only [truncatePairs, renderPairs, separator, Bool.not_false, Bool.not_true,
        Bool.true_and, Bool.false_and, Bool.false_eq_true, ↓reduceIte, List.nil_append,
        List.append_assoc, List.cons_append]
    · intro i hi
      rw [writePairs, rest.outer i (by rw [hdepth]; exact hi),
        hv.outer i (by rw [hkey.depth]; exact hi), hkey.outer i hi]

/-! ## Brackets -/

/-- The state between the brackets of a container opened below depth 64. -/
theorem writeStart_wrote {jw : JsonWriter} (h : jw.depth < maxDepth) (b : UInt8) :
    (writeStart jw b).depth = jw.depth + 1 ∧ (writeStart jw b).lastWasKey = false ∧
    (jw.depth + 1 < maxDepth → (writeStart jw b).bit (jw.depth + 1) = false) ∧
    ∃ jw₁, Wrote jw jw₁ [b] ∧ (writeStart jw b).out = jw₁.out ∧
      ∀ i, i ≤ jw.depth → (writeStart jw b).bit i = jw₁.bit i := by
  obtain ⟨hw, hk⟩ := writeItem_wrote h [b]
  have hmod : ((jw.writeItem [b]).depth + 1) % 2 ^ 32 = jw.depth + 1 := by
    rw [hw.depth]
    have : maxDepth = 64 := rfl
    omega
  simp only [writeStart, hmod]
  refine ⟨setComma_depth _ _, by rw [setComma_lastWasKey]; exact hk, ?_,
    jw.writeItem [b], hw, setComma_out _ _, ?_⟩
  · intro hlt
    exact @setComma_bit { jw.writeItem [b] with depth := jw.depth + 1 } hlt false
  · intro i hi
    exact setComma_bit_of_ne _ false (by simp only; omega)

/-- A bracket pair around whatever was written between. -/
theorem writeEnd_wrote {jw jw₁ s : JsonWriter} {a b : UInt8} {text : Bytes}
    (h : jw.depth < maxDepth) (hw : Wrote jw jw₁ [a]) (hout : s.out = jw₁.out ++ text)
    (hdepth : s.depth = jw.depth + 1) (hkey : s.lastWasKey = false)
    (hbit : ∀ i, i ≤ jw.depth → s.bit i = jw₁.bit i) :
    Wrote jw (writeEnd s b) (a :: text ++ [b]) ∧ (writeEnd s b).lastWasKey = false := by
  have hd : (s.depth + 2 ^ 32 - 1) % 2 ^ 32 = jw.depth := by
    rw [hdepth]
    have : maxDepth = 64 := rfl
    omega
  have hmax : ¬ jw.depth ≥ maxDepth := Nat.not_le.mpr h
  have he : writeEnd s b = { s with depth := jw.depth, out := s.out ++ [b] } := by
    simp only [writeEnd, hd, atMaxDepth, decide_eq_false hmax, Bool.false_eq_true, ↓reduceIte]
    rfl
  rw [he]
  refine ⟨⟨?_, rfl, ?_, ?_⟩, hkey⟩
  · simp [hout, hw.out, List.append_assoc]
  · exact (hbit _ (Nat.le_refl _)).trans hw.comma
  · intro i hi
    exact (hbit i (Nat.le_of_lt hi)).trans (hw.outer i hi)

theorem writeValue_list {vs : List Value} (h : ∀ v ∈ vs, WritesText dt v) :
    WritesText dt (.list vs) := by
  intro jw hd hw
  simp only [Value.height] at hw
  obtain ⟨sd, sk, sb, jw₁, w₁, so, sbit⟩ := writeStart_wrote hd 91
  rw [writeValue, truncate, render]
  by_cases hlt : jw.depth + 1 < maxDepth
  · have items := writeItems_wrote dt h (writeStart jw 91) (by rw [sd]; exact hlt)
      (by rw [sd]; omega) sk
    rw [sd, sb hlt] at items
    rw [if_pos hlt]
    refine writeEnd_wrote hd w₁ (by rw [items.out, so]) (by rw [items.depth, sd]) items.key ?_
    intro i hi
    rw [items.outer i (by rw [sd]; omega), sbit i hi]
  · have hmax : maxDepth ≤ (writeStart jw 91).depth := by rw [sd]; omega
    have items : writeItems dt vs (writeStart jw 91) = writeStart jw 91 :=
      writeItems_of_max dt fun v hv => by
        have hle := Value.height_le_heightList hv
        exact writeValue_of_max dt v _ hmax (by rw [sd]; omega)
    rw [items, if_neg hlt]
    exact writeEnd_wrote hd w₁ (by simp [so, renderItems]) sd sk sbit

theorem writeValue_object {ps : List (Bytes × Value)} (h : ∀ p ∈ ps, WritesText dt p.2)
    (hz : ∀ p ∈ ps, 0 ∉ p.1) : WritesText dt (.object ps) := by
  intro jw hd hw
  simp only [Value.height] at hw
  obtain ⟨sd, sk, sb, jw₁, w₁, so, sbit⟩ := writeStart_wrote hd 123
  rw [writeValue, truncate, render]
  by_cases hlt : jw.depth + 1 < maxDepth
  · have items := writePairs_wrote dt h hz (writeStart jw 123) (by rw [sd]; exact hlt)
      (by rw [sd]; omega) sk
    rw [sd, sb hlt] at items
    rw [if_pos hlt]
    refine writeEnd_wrote hd w₁ (by rw [items.out, so]) (by rw [items.depth, sd]) items.key ?_
    intro i hi
    rw [items.outer i (by rw [sd]; omega), sbit i hi]
  · have hmax : maxDepth ≤ (writeStart jw 123).depth := by rw [sd]; omega
    have items : writePairs dt ps (writeStart jw 123) = writeStart jw 123 :=
      writePairs_of_max dt hmax fun p hp => by
        have hle := Value.height_le_heightPairs hp
        exact writeValue_of_max dt p.2 _ hmax (by rw [sd]; omega)
    rw [items, if_neg hlt]
    exact writeEnd_wrote hd w₁ (by simp [so, renderPairs]) sd sk sbit

/-- **The machine writes the cut tree.** Wherever an item may stand, a plain
value adds its text, after the comma the machine owes. -/
theorem writeValue_wrote {v : Value} (hp : v.Plain) : WritesText dt v := by
  induction hp with
  | null => intro jw h _; exact writeItem_wrote h _
  | bool b => intro jw h _; exact writeItem_wrote h _
  | int32 i => intro jw h _; exact writeItem_wrote h _
  | int64 i => intro jw h _; exact writeItem_wrote h _
  | uint64 u => intro jw h _; exact writeItem_wrote h _
  | string s => intro jw h _; exact writeItem_wrote h _
  | list _ ih => exact writeValue_list dt ih
  | object _ hz _ ih => exact writeValue_object dt ih hz

theorem toJson_eq_render {v : Value} (hp : v.Plain) (hh : v.height < 2 ^ 32) :
    toJson dt v = render (truncate 0 v) := by
  have h := (writeValue_wrote dt hp JsonWriter.new (by decide) (by simpa [JsonWriter.new] using hh)).1
  rw [toJson, h.out]
  simp [JsonWriter.new, separator, JsonWriter.bit]

/-! ## The writer only ever appends -/

section Appends

variable {dt : DoubleText}

theorem out_canWriteItem (jw : JsonWriter) : jw.out <+: jw.canWriteItem.2.out := by
  unfold JsonWriter.canWriteItem
  split
  · exact List.prefix_rfl
  · split
    · exact List.prefix_rfl
    · split
      · exact List.prefix_append _ _
      · simp only [setComma_out, List.prefix_rfl]

theorem out_writeItem (jw : JsonWriter) (text : Bytes) : jw.out <+: (jw.writeItem text).out := by
  have hcan := out_canWriteItem jw
  unfold JsonWriter.writeItem
  split
  · rename_i heq
    rw [heq] at hcan
    exact hcan.trans (List.prefix_append _ _)
  · rename_i heq
    rw [heq] at hcan
    exact hcan

theorem out_writeKey (jw : JsonWriter) (k : Bytes) : jw.out <+: (writeKey jw k).out := by
  have hcan := out_canWriteItem jw
  unfold writeKey
  split
  · rename_i heq
    rw [heq] at hcan
    exact hcan.trans (List.prefix_append _ _)
  · rename_i heq
    rw [heq] at hcan
    exact hcan

theorem out_writeStart (jw : JsonWriter) (bracket : UInt8) : jw.out <+: (writeStart jw bracket).out := by
  unfold writeStart
  rw [setComma_out]
  exact out_writeItem jw [bracket]

theorem out_writeEnd (jw : JsonWriter) (bracket : UInt8) : jw.out <+: (writeEnd jw bracket).out := by
  obtain ⟨d, hd⟩ : ∃ d, (jw.depth + 2 ^ 32 - 1) % 2 ^ 32 = d := ⟨_, rfl⟩
  by_cases hmax : maxDepth ≤ d
  · simp only [writeEnd, hd, atMaxDepth, ge_iff_le, decide_eq_true hmax, if_true, List.prefix_rfl]
  · simp only [writeEnd, hd, atMaxDepth, ge_iff_le, decide_eq_false hmax, Bool.false_eq_true, if_false, writeChar, write,
      List.prefix_append]

theorem out_writeItems {vs : List Value} (h : ∀ v ∈ vs, ∀ jw, jw.out <+: (writeValue dt v jw).out) :
    ∀ jw, jw.out <+: (writeItems dt vs jw).out := by
  induction vs with
  | nil => exact fun jw => List.prefix_rfl
  | cons v vs ih =>
    intro jw
    apply (h v List.mem_cons_self jw).trans
    exact ih (fun w hw => h w (List.mem_cons_of_mem v hw)) _

theorem out_writePairs {ps : List (Bytes × Value)} (h : ∀ p ∈ ps, ∀ jw, jw.out <+: (writeValue dt p.2 jw).out) :
    ∀ jw, jw.out <+: (writePairs dt ps jw).out := by
  induction ps with
  | nil => exact fun jw => List.prefix_rfl
  | cons p ps ih =>
    intro jw
    apply ((out_writeKey jw p.1).trans (h p List.mem_cons_self _)).trans
    exact ih (fun q hq => h q (List.mem_cons_of_mem p hq)) _

theorem out_writeValue (v : Value) : ∀ jw, jw.out <+: (writeValue dt v jw).out := by
  induction v using Value.tree_induction with
  | null => exact fun jw => out_writeItem jw _
  | bool b => exact fun jw => out_writeItem jw _
  | int32 i => exact fun jw => out_writeItem jw _
  | int64 i => exact fun jw => out_writeItem jw _
  | uint64 u => exact fun jw => out_writeItem jw _
  | double d => exact fun jw => out_writeItem jw _
  | string s => exact fun jw => out_writeItem jw _
  | list vs ih =>
    intro jw
    rw [writeValue]
    exact ((out_writeStart jw 91).trans (out_writeItems ih _)).trans (out_writeEnd _ 93)
  | object ps ih =>
    intro jw
    rw [writeValue]
    exact ((out_writeStart jw 123).trans (out_writePairs ih _)).trans (out_writeEnd _ 125)

theorem toJson_object_ne_nil (ps : List (Bytes × Value)) : toJson dt (.object ps) ≠ [] := by
  have hstart := out_writePairs (fun p (_ : p ∈ ps) => @out_writeValue dt p.2) (writeStart JsonWriter.new 123)
  have hopen : (writeStart JsonWriter.new 123).out = [123] := by decide
  intro hnil
  rw [toJson, writeValue] at hnil
  have hall := hstart.trans (out_writeEnd _ 125)
  rw [hopen, hnil] at hall
  simp at hall

end Appends

end SentryNative.Json
