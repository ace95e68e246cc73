import SentryNative.Tracing.Context

/-!
# The baggage header

What `sentry__span_iter_headers` writes into a `baggage` header is read back by
`sentry__baggage_iter_next` and `parse_baggage`.
-/

namespace SentryNative.Dsc

open CLib ObjectMap

/-! ## The loop -/

theorem afterComma_lt {s : Bytes} (h : s ≠ []) :
    (s.dropWhile (· ≠ 44)).tail.length < s.length := by
  have hle := (List.dropWhile_suffix (p := fun c : UInt8 => decide (c ≠ 44)) (l := s)).length_le
  have hpos := List.length_pos_of_ne_nil h
  rw [List.length_tail]
  omega

/-- `sentry__baggage_iter_next`: the next member, and what remains. -/
def baggageIterNext (remaining : Bytes) : Option (Bytes × Bytes) × Bytes :=
  if _h : remaining = [] then (none, [])
  else
    match baggageMember (remaining.takeWhile (· ≠ 44)) with
    | some m => (some m, (remaining.dropWhile (· ≠ 44)).tail)
    | none => baggageIterNext (remaining.dropWhile (· ≠ 44)).tail
termination_by remaining.length
decreasing_by exact afterComma_lt _h

/-- A call takes something off the header, or it finds nothing and the header is used up. -/
theorem baggageIterNext_remaining (remaining : Bytes) :
    (baggageIterNext remaining).1 = none ∧ (baggageIterNext remaining).2 = [] ∨
      (baggageIterNext remaining).2.length < remaining.length := by
  induction remaining using baggageIterNext.induct with
  | case1 =>
    rw [baggageIterNext, dif_pos rfl]
    exact .inl ⟨rfl, rfl⟩
  | case2 remaining h m hm =>
    rw [baggageIterNext, dif_neg h, hm]
    exact .inr (afterComma_lt h)
  | case3 remaining h hm ih =>
    rw [baggageIterNext, dif_neg h, hm]
    exact ih.imp id fun hlt => hlt.trans (afterComma_lt h)

/-- The members that the calls find until one finds none. -/
def baggageMembers (remaining : Bytes) : List (Bytes × Bytes) :=
  match _h : baggageIterNext remaining with
  | (none, _) => []
  | (some m, rest) => m :: baggageMembers rest
termination_by remaining.length
decreasing_by
  rcases baggageIterNext_remaining remaining with h | h <;> rw [_h] at h
  · cases h.1
  · exact h

theorem baggageMembers_nil : baggageMembers [] = [] := by
  have hnext : baggageIterNext [] = (none, []) := by rw [baggageIterNext, dif_pos rfl]
  rw [baggageMembers, hnext]

/-- One member and what is behind its comma. -/
theorem baggageMembers_step {s : Bytes} (h : s ≠ []) :
    baggageMembers s = (baggageMember (s.takeWhile (· ≠ 44))).toList ++
      baggageMembers (s.dropWhile (· ≠ 44)).tail := by
  have hnext : baggageIterNext s =
      match baggageMember (s.takeWhile (· ≠ 44)) with
      | some m => (some m, (s.dropWhile (· ≠ 44)).tail)
      | none => baggageIterNext (s.dropWhile (· ≠ 44)).tail := by
    rw [baggageIterNext, dif_neg h]
  rw [baggageMembers, hnext]
  cases hm : baggageMember (s.takeWhile (· ≠ 44)) with
  | some m => rfl
  | none =>
    rw [Option.toList_none, List.nil_append, baggageMembers]

/-- The members are those between the commas. -/
theorem baggageMembers_eq (s : Bytes) :
    baggageMembers s = (s.splitOn 44).filterMap baggageMember := by
  induction hn : s.length using Nat.strong_induction_on generalizing s with
  | _ n ih =>
    by_cases hs : s = []
    · subst hs
      rw [baggageMembers_nil]
      rfl
    subst hn
    have hle := (List.dropWhile_suffix (p := fun c : UInt8 => decide (c ≠ 44)) (l := s)).length_le
    have hpos := List.length_pos_of_ne_nil hs
    have hfree : ∀ c ∈ s.takeWhile (· ≠ 44), (c == 44) = false := by
      intro c hc
      simpa using List.mem_takeWhile_imp hc
    rw [baggageMembers_step hs]
    cases hd : s.dropWhile (· ≠ 44) with
    | nil =>
      have hall : s.takeWhile (· ≠ 44) = s := by
        have := List.takeWhile_append_dropWhile (p := fun c : UInt8 => decide (c ≠ 44)) (l := s)
        rwa [hd, List.append_nil] at this
      rw [hall] at hfree ⊢
      rw [List.tail_nil, baggageMembers_nil, List.append_nil, List.splitOn, List.splitOnP_eq_singleton hfree]
      rw [List.filterMap_cons]
      cases baggageMember s <;> rfl
    | cons c rest =>
      have hc : c = 44 := by
        have := List.head?_dropWhile_not (fun c : UInt8 => decide (c ≠ 44)) s
        rw [hd] at this
        simpa using this
      subst hc
      have hsplit : s.splitOn 44 = s.takeWhile (· ≠ 44) :: rest.splitOn 44 := by
        conv_lhs =>
          rw [← List.takeWhile_append_dropWhile (p := fun c : UInt8 => decide (c ≠ 44)) (l := s), hd]
        exact List.splitOnP_append_cons_of_forall_mem hfree 44 (by simp) rest
      rw [hd, List.length_cons] at hle
      rw [hsplit, List.tail_cons, ih rest.length (by omega) rest rfl]
      rw [List.filterMap_cons]
      cases baggageMember (s.takeWhile (· ≠ 44)) <;> rfl

/-- `parse_baggage` sets the members that the calls find. -/
theorem parseBaggage_members (incoming : List (Bytes × Value)) (header : Bytes) :
    parseBaggage incoming header = (baggageMembers header).foldl setMember incoming := by
  rw [baggageMembers_eq, parseBaggage]

/-! ## What is written is read -/

/-- A key of the context as the header needs it. -/
structure IsBaggageKey (k : Bytes) : Prop where
  ne_nil : k ≠ []
  ne_traceId : k ≠ traceIdKey
  separators : 44 ∉ k ∧ 61 ∉ k
  first : ∀ c ∈ k.head?, isSpace c = false
  last : ∀ c ∈ k.getLast?, isSpace c = false

/-- Letters, digits and what else is written as it is; a trace id has nothing else. -/
def IsPlain (s : Bytes) : Prop := ∀ c ∈ s, isUnreserved c = true

/-- A byte that no part of the header is cut or trimmed at. -/
def Solid (c : UInt8) : Prop := isSpace c = false ∧ c ≠ 44 ∧ c ≠ 59

theorem solid_of_unreserved {c : UInt8} (h : isUnreserved c = true) : Solid c := by
  have hall : ∀ n < 256, isUnreserved (UInt8.ofNat n) = true → isSpace (UInt8.ofNat n) = false ∧
      UInt8.ofNat n ≠ 44 ∧ UInt8.ofNat n ≠ 59 := by decide +kernel
  have hc := hall c.toNat c.toNat_lt
  rw [UInt8.ofNat_toNat] at hc
  exact hc h

theorem solid_hexDigit {c : UInt8} : Solid (hexDigit (c >>> 4)) ∧ Solid (hexDigit (c &&& 15)) := by
  have hall : ∀ n < 256,
      (isSpace (hexDigit (UInt8.ofNat n >>> 4)) = false ∧ hexDigit (UInt8.ofNat n >>> 4) ≠ 44 ∧
        hexDigit (UInt8.ofNat n >>> 4) ≠ 59) ∧
      isSpace (hexDigit (UInt8.ofNat n &&& 15)) = false ∧ hexDigit (UInt8.ofNat n &&& 15) ≠ 44 ∧
        hexDigit (UInt8.ofNat n &&& 15) ≠ 59 := by decide +kernel
  have hc := hall c.toNat c.toNat_lt
  rw [UInt8.ofNat_toNat] at hc
  exact hc

theorem solid_percentEncode {s : Bytes} : ∀ c ∈ percentEncode s, Solid c := by
  intro c hc
  obtain ⟨b, -, hc⟩ := List.mem_flatMap.mp hc
  split at hc
  · rename_i hb
    rw [List.mem_singleton.mp hc]
    exact solid_of_unreserved hb
  · simp only [List.mem_cons, List.not_mem_nil, or_false] at hc
    rcases hc with rfl | rfl | rfl
    · exact ⟨by decide, by decide, by decide⟩
    · exact solid_hexDigit.1
    · exact solid_hexDigit.2

/-- What starts and ends with no blank is not trimmed. -/
theorem trim_solid {s : Bytes} (hf : ∀ c ∈ s.head?, isSpace c = false)
    (hl : ∀ c ∈ s.getLast?, isSpace c = false) : trim s = s := by
  have hdrop : ∀ t : Bytes, (∀ c ∈ t.head?, isSpace c = false) → t.dropWhile isSpace = t := by
    intro t ht
    cases t with
    | nil => rfl
    | cons c t => rw [List.dropWhile_cons_of_neg (by simpa using ht c rfl)]
  rw [trim, hdrop s hf, hdrop s.reverse (by simpa [List.head?_reverse] using hl), List.reverse_reverse]

theorem trim_all {s : Bytes} (h : ∀ c ∈ s, isSpace c = false) : trim s = s :=
  trim_solid (fun c hc => h c (List.mem_of_mem_head? hc)) fun c hc => h c (List.mem_of_getLast? hc)

/-- A member of the header: a key with the prefix, and a text without separators. -/
theorem baggageMember_text {k v : Bytes} (hne : k ≠ []) (heq : 61 ∉ k)
    (hlast : ∀ c ∈ k.getLast?, isSpace c = false) (hv : ∀ c ∈ v, Solid c) :
    baggageMember (sentryPrefix ++ k ++ 61 :: v) = some (sentryPrefix ++ k, v) := by
  have hp61 : ∀ c ∈ sentryPrefix ++ k, c ≠ 61 := by
    intro c hc h61
    subst h61
    rcases List.mem_append.mp hc with hc | hc
    · exact absurd hc (by decide)
    · exact heq hc
  have hkey : trim (sentryPrefix ++ k) = sentryPrefix ++ k := by
    have hhead : (sentryPrefix ++ k).head? = some 115 := rfl
    refine trim_solid (fun c hc => ?_) ?_
    · rw [hhead] at hc
      cases hc
      decide
    rw [List.getLast?_append_of_ne_nil _ hne]
    exact hlast
  have hmember : trim (sentryPrefix ++ k ++ 61 :: v) = sentryPrefix ++ k ++ 61 :: v := by
    refine trim_solid (by simp [sentryPrefix, ascii, isSpace]) fun c hc => ?_
    rw [List.getLast?_append_of_ne_nil _ (by simp)] at hc
    rcases List.mem_cons.mp (List.mem_of_getLast? hc) with rfl | hc
    · decide
    · exact (hv c hc).1
  obtain ⟨htake, hdrop⟩ := takeWhile_part (p := (· ≠ 61)) (s := sentryPrefix ++ k) (t := 61 :: v)
    (by simpa using hp61) (by simp)
  have hsemi : v.takeWhile (· ≠ 59) = v :=
    List.takeWhile_eq_self_iff.mpr fun c hc => by simpa using (hv c hc).2.2
  have hkne : sentryPrefix ++ k ≠ [] := by simp [hne]
  unfold baggageMember
  simp only [hmember, htake, hdrop, hkey, hsemi, List.tail_cons, trim_all fun c hc => (hv c hc).1]
  rw [if_pos (by simp), if_neg hkne]

theorem setMember_prefixed {k v : Bytes} (hne : k ≠ []) (dsc : List (Bytes × Value)) :
    setMember dsc (sentryPrefix ++ k, v) = setPairs k (.string (cstr (percentDecode v))) dsc := by
  have hlen : sentryPrefix.length < (sentryPrefix ++ k).length := by
    have := List.length_pos_of_ne_nil hne
    rw [List.length_append]
    omega
  rw [setMember, if_pos ⟨List.prefix_append _ _, hlen⟩, List.drop_left]

/-- The member of the header for a key and a text. -/
def memberText (k s : Bytes) : Bytes := sentryPrefix ++ k ++ 61 :: percentEncode s

theorem comma_not_mem_memberText {k s : Bytes} (hk : 44 ∉ k) : 44 ∉ memberText k s := by
  intro h
  rcases List.mem_append.mp h with h | h
  · rcases List.mem_append.mp h with h | h
    · exact absurd h (by decide)
    · exact hk h
  · rcases List.mem_cons.mp h with h | h
    · exact absurd h (by decide)
    · exact (solid_percentEncode 44 h).2.1 rfl

theorem splitOn_members {m : Bytes} (hm : 44 ∉ m) {ps : List (Bytes × Value)}
    {f : Bytes × Value → Bytes} (hf : ∀ p ∈ ps, 44 ∉ f p) :
    (m ++ ps.flatMap fun p => 44 :: f p).splitOn 44 = m :: ps.map f := by
  have hfree : ∀ t : Bytes, 44 ∉ t → ∀ c ∈ t, (c == 44) = false := by
    intro t ht c hc
    simpa using fun h : c = 44 => ht (h ▸ hc)
  induction ps generalizing m with
  | nil =>
    rw [List.flatMap_nil, List.append_nil]
    exact List.splitOnP_eq_singleton (hfree m hm)
  | cons p ps ih =>
    rw [List.flatMap_cons, List.cons_append, List.map_cons]
    have hsplit := List.splitOnP_append_cons_of_forall_mem (hfree m hm) 44 (by simp)
      (f p ++ ps.flatMap fun p => 44 :: f p)
    rw [← ih (hf p List.mem_cons_self) fun q hq => hf q (List.mem_cons_of_mem _ hq)]
    exact hsplit

/-- Strings under the keys of a context are set behind what is there. -/
theorem foldl_setMember {src dst : List (Bytes × Value)} (hk : Keyed (dst ++ src))
    (hs : ∀ p ∈ src, p.1 ≠ [] ∧ ∃ s, p.2 = .string s ∧ 0 ∉ s) :
    (src.map fun p => (sentryPrefix ++ p.1, percentEncode p.2.asString)).foldl setMember dst =
      dst ++ src := by
  induction src generalizing dst with
  | nil => simp
  | cons p src ih =>
    obtain ⟨k, v⟩ := p
    obtain ⟨hne, s, rfl, hz⟩ := hs _ List.mem_cons_self
    have hnodup := hk.nodup
    rw [List.map_append, List.map_cons, List.nodup_append] at hnodup
    have hdst : Keyed dst := ⟨fun q hq => hk.nulFree q (List.mem_append_left _ hq), hnodup.1⟩
    have hnew : k ∉ dst.map Prod.fst := fun hm => hnodup.2.2 k hm k List.mem_cons_self rfl
    have hnext : dst ++ [(k, .string s)] ++ src = dst ++ (k, .string s) :: src := by simp
    rw [List.map_cons, List.foldl_cons, setMember_prefixed hne, percentDecode_percentEncode,
      show Value.asString (.string s) = s from cstr_of_not_mem hz, cstr_of_not_mem hz,
      setPairs_of_not_mem hdst hnew, ih (hnext ▸ hk) fun q hq => hs q (List.mem_cons_of_mem _ hq), hnext]

theorem plain_encode {s : Bytes} (h : IsPlain s) : percentEncode s = s := by
  induction s with
  | nil => rfl
  | cons c s ih =>
    have hcons : percentEncode (c :: s) =
        (if isUnreserved c then [c] else [37, hexDigit (c >>> 4), hexDigit (c &&& 15)]) ++
          percentEncode s := rfl
    rw [hcons, if_pos (h c List.mem_cons_self), ih fun d hd => h d (List.mem_cons_of_mem _ hd)]
    rfl

theorem IsPlain.nul_free {s : Bytes} (h : IsPlain s) : 0 ∉ s :=
  fun h0 => absurd (h 0 h0) (by decide)

section RoundTrip

variable {scope : Scope} {span : Value} {traceId : Bytes}

/-- The header of a span, member by member. -/
theorem baggage_text (hid : span.getByKey traceIdKey = .string traceId)
    (hspan : span.getByKey (ascii "span_id") ≠ .null) (hplain : IsPlain traceId)
    (hkeyed : Keyed scope.dsc.pairs)
    (hpairs : ∀ p ∈ scope.dsc.pairs, IsBaggageKey p.1 ∧ ∃ s, p.2 = .string s ∧ 0 ∉ s) :
    scope.baggage span = some (memberText traceIdKey traceId ++
      scope.dsc.pairs.flatMap fun p => 44 :: memberText p.1 p.2.asString) := by
  have hsome : isNull (span.getByKey (ascii "span_id")) = false := by
    rw [Bool.eq_false_iff, ne_eq, isNull_iff]
    exact hspan
  have htext : ∀ p ∈ scope.dsc.pairs,
      baggageText (cstr p.1) p.2 = 44 :: memberText p.1 p.2.asString := by
    rintro ⟨k, v⟩ hp
    obtain ⟨hk, s, rfl, hz⟩ := hpairs _ hp
    rw [cstr_of_not_mem (hkeyed.nulFree _ hp), baggageText,
      if_neg (by simp only [isNull, Bool.or_false, decide_eq_true_eq]; exact hk.ne_traceId),
      memberText, show ascii ",sentry-" = 44 :: sentryPrefix from rfl]
    simp only [List.append_assoc, List.cons_append, List.nil_append]
  have hnull : (isNull (.string traceId) || isNull (span.getByKey (ascii "span_id"))) = false := by
    rw [hsome]
    rfl
  rw [Scope.baggage, hid]
  simp only [hnull, Bool.false_eq_true, if_false]
  rw [List.flatMap_congr htext, memberText, plain_encode hplain,
    show Value.asString (.string traceId) = traceId from cstr_of_not_mem hplain.nul_free]
  rfl

theorem parseBaggage_text (hplain : IsPlain traceId) (hkeyed : Keyed scope.dsc.pairs)
    (hpairs : ∀ p ∈ scope.dsc.pairs, IsBaggageKey p.1 ∧ ∃ s, p.2 = .string s ∧ 0 ∉ s) :
    parseBaggage [] (memberText traceIdKey traceId ++
        scope.dsc.pairs.flatMap fun p => 44 :: memberText p.1 p.2.asString) =
      (traceIdKey, .string traceId) :: scope.dsc.pairs := by
  have hall : ∀ p ∈ ((traceIdKey, Value.string traceId) :: scope.dsc.pairs : List (Bytes × Value)),
      p.1 ≠ [] ∧ 44 ∉ p.1 ∧ 61 ∉ p.1 ∧ (∀ c ∈ p.1.getLast?, isSpace c = false) ∧
        ∃ s, p.2 = .string s ∧ 0 ∉ s := by
    intro p hp
    rcases List.mem_cons.mp hp with rfl | hp
    · exact ⟨(by decide : traceIdKey ≠ []), (by decide : 44 ∉ traceIdKey), (by decide : 61 ∉ traceIdKey),
        (by decide +kernel : ∀ c ∈ traceIdKey.getLast?, isSpace c = false), traceId, rfl, hplain.nul_free⟩
    · obtain ⟨hk, hs⟩ := hpairs p hp
      exact ⟨hk.ne_nil, hk.separators.1, hk.separators.2, hk.last, hs⟩
  have hk : Keyed ((traceIdKey, Value.string traceId) :: scope.dsc.pairs) := by
    refine ⟨fun p hp => ?_, ?_⟩
    · rcases List.mem_cons.mp hp with rfl | hp
      · exact (by decide : 0 ∉ traceIdKey)
      · exact hkeyed.nulFree p hp
    · rw [List.map_cons, List.nodup_cons]
      refine ⟨fun hm => ?_, hkeyed.nodup⟩
      obtain ⟨p, hp, heq⟩ := List.mem_map.mp hm
      exact (hpairs p hp).1.ne_traceId heq
  have hid : traceId = Value.asString (.string traceId) := (cstr_of_not_mem hplain.nul_free).symm
  have hsplit := splitOn_members (m := memberText traceIdKey traceId)
    (f := fun p => memberText p.1 p.2.asString) (comma_not_mem_memberText (by decide))
    fun p hp => comma_not_mem_memberText (hpairs p hp).1.separators.1
  have hmap : memberText traceIdKey traceId :: scope.dsc.pairs.map (fun p => memberText p.1 p.2.asString) =
      ((traceIdKey, Value.string traceId) :: scope.dsc.pairs).map fun p => memberText p.1 p.2.asString := by
    rw [List.map_cons, ← hid]
  have hmembers : ∀ ps : List (Bytes × Value),
      (∀ p ∈ ps, p.1 ≠ [] ∧ 61 ∉ p.1 ∧ ∀ c ∈ p.1.getLast?, isSpace c = false) →
      (ps.map fun p => memberText p.1 p.2.asString).filterMap baggageMember =
        ps.map fun p => (sentryPrefix ++ p.1, percentEncode p.2.asString) := by
    intro ps hps
    induction ps with
    | nil => rfl
    | cons p ps ih =>
      obtain ⟨h1, h2, h3⟩ := hps p List.mem_cons_self
      rw [List.map_cons, List.filterMap_cons, memberText,
        baggageMember_text h1 h2 h3 solid_percentEncode, List.map_cons]
      exact congrArg _ (ih fun q hq => hps q (List.mem_cons_of_mem _ hq))
  rw [parseBaggage, hsplit, hmap, hmembers _ fun p hp => ⟨(hall p hp).1, (hall p hp).2.2.1, (hall p hp).2.2.2.1⟩]
  exact foldl_setMember hk fun p hp => ⟨(hall p hp).1, (hall p hp).2.2.2.2⟩

end RoundTrip

/-! ## Both headers -/

/-- An `incoming_dsc` that is there. -/
def marked (v : Value) : Value := if isNull v then .object [] else v

/-- The object with the members of a header. -/
def withBaggage (v : Value) (header : Bytes) : Value :=
  match v with
  | .object pairs => .object (parseBaggage pairs header)
  | v => v

theorem marked_withBaggage (v : Value) (header : Bytes) :
    marked (withBaggage (marked v) header) = withBaggage (marked v) header := by
  cases v <;> rfl

theorem marked_marked (v : Value) : marked (marked v) = marked v := by cases v <;> rfl

theorem incoming_parseBaggageHeader (ctx : Context) (header : Bytes) :
    getPairs .null incomingKey (parseBaggageHeader ctx header) =
      withBaggage (marked (getPairs .null incomingKey ctx)) header := by
  have hmark : getPairs .null incomingKey (markIncoming ctx) = marked (getPairs .null incomingKey ctx) :=
    getPairs_incoming_markIncoming ctx
  unfold parseBaggageHeader
  dsimp only
  rw [hmark]
  cases hv : marked (getPairs .null incomingKey ctx) with
  | object pairs => exact getPairs_setPairs Value.null (by decide) _ _
  | _ => exact hmark.trans hv

theorem incoming_parseSentryTrace (ctx : Context) (value : Bytes) :
    getPairs .null incomingKey (parseSentryTrace ctx value) = getPairs .null incomingKey ctx ∨
      getPairs .null incomingKey (parseSentryTrace ctx value) =
        marked (getPairs .null incomingKey ctx) := by
  by_cases hst : StartsTrace value
  · right
    rw [parseSentryTrace_starts hst, getPairs_parseSpanId _ _ (by decide) (by decide),
      getPairs_incoming_markIncoming, getPairs_setPairs_of_ne Value.null (by decide) (by decide)]
    rfl
  · left
    rw [parseSentryTrace_ignored hst]

/-- The order of the two headers does not matter to what is kept of the baggage. -/
theorem incoming_commutes (ctx : Context) (trace header : Bytes) :
    getPairs .null incomingKey (parseBaggageHeader (parseSentryTrace ctx trace) header) =
      getPairs .null incomingKey (parseSentryTrace (parseBaggageHeader ctx header) trace) := by
  have hleft : getPairs .null incomingKey (parseBaggageHeader (parseSentryTrace ctx trace) header) =
      withBaggage (marked (getPairs .null incomingKey ctx)) header := by
    rw [incoming_parseBaggageHeader]
    rcases incoming_parseSentryTrace ctx trace with h | h
    · rw [h]
    · rw [h, marked_marked]
  have hmark := marked_withBaggage (getPairs .null incomingKey ctx) header
  rw [hleft]
  rcases incoming_parseSentryTrace (parseBaggageHeader ctx header) trace with h | h
  · rw [h, incoming_parseBaggageHeader]
  · rw [h, incoming_parseBaggageHeader, hmark]

theorem hasPrefix_of_set {dsc : List (Bytes × Value)} {m : Bytes × Bytes}
    (h : ¬ sentryPrefix <+: m.1) : setMember dsc m = dsc := if_neg fun hm => h hm.1

/-- Only the members with the prefix count. -/
theorem foldl_prefixed (ms : List (Bytes × Bytes)) (dsc : List (Bytes × Value)) :
    ms.foldl setMember dsc = (ms.filter fun m => sentryPrefix <+: m.1).foldl setMember dsc := by
  induction ms generalizing dsc with
  | nil => rfl
  | cons m ms ih =>
    by_cases hm : sentryPrefix <+: m.1
    · rw [List.filter_cons_of_pos (by simpa using hm), List.foldl_cons, List.foldl_cons, ih]
    · rw [List.filter_cons_of_neg (by simpa using hm), List.foldl_cons, hasPrefix_of_set hm, ih]

/-- The context that a span sends arrives in a new transaction context, in either order of
the headers; a header is read in finitely many calls, of which only the members with the
prefix count. -/
theorem baggage_round_trip (scope : Scope) (span : Value) (traceId : Bytes) (ctx : Context)
    (hfresh : getPairs .null incomingKey ctx = .null)
    (hid : span.getByKey traceIdKey = .string traceId)
    (hspan : span.getByKey (ascii "span_id") ≠ .null) (hplain : IsPlain traceId)
    (hkeyed : Keyed scope.dsc.pairs)
    (hpairs : ∀ p ∈ scope.dsc.pairs, IsBaggageKey p.1 ∧ ∃ s, p.2 = .string s ∧ 0 ∉ s) :
    (∃ header, scope.baggage span = some header ∧
        getPairs .null incomingKey (updateFromHeader ctx (ascii "baggage") header) =
          .object ((traceIdKey, .string traceId) :: scope.dsc.pairs)) ∧
      (∀ ctx trace header,
        getPairs .null incomingKey (updateFromHeader
            (updateFromHeader ctx (ascii "sentry-trace") trace) (ascii "baggage") header) =
          getPairs .null incomingKey (updateFromHeader
            (updateFromHeader ctx (ascii "baggage") header) (ascii "sentry-trace") trace)) ∧
      (∀ remaining, (baggageIterNext remaining).1 = none ∧ (baggageIterNext remaining).2 = [] ∨
        (baggageIterNext remaining).2.length < remaining.length) ∧
      ∀ incoming header, parseBaggage incoming header =
        ((baggageMembers header).filter fun m => sentryPrefix <+: m.1).foldl setMember incoming := by
  have htrace : ∀ c v, updateFromHeader c (ascii "sentry-trace") v = parseSentryTrace c v :=
    fun c v => if_pos (by decide)
  have hbaggage : ∀ c v, updateFromHeader c (ascii "baggage") v = parseBaggageHeader c v :=
    fun c v => (if_neg (by decide)).trans (if_pos (by decide))
  refine ⟨⟨_, baggage_text hid hspan hplain hkeyed hpairs, ?_⟩, fun c trace header => ?_,
    baggageIterNext_remaining, fun incoming header => ?_⟩
  · rw [hbaggage, incoming_parseBaggageHeader, hfresh, ← parseBaggage_text hplain hkeyed hpairs]
    rfl
  · rw [htrace, hbaggage, hbaggage, htrace]
    exact incoming_commutes c trace header
  · rw [parseBaggage_members, foldl_prefixed]

/-- A key with a blank and a semicolon in it, and a value with a comma and a byte that is no text. -/
theorem baggage_round_trip_sample :
    let pairs : List (Bytes × Value) := [([97, 32, 59, 98], .string [97, 32, 44, 37, 255])]
    let span := Value.object [(traceIdKey, .string [49, 50]), (ascii "span_id", .string [51])]
    ∃ header, (Scope.mk none none ⟨true, pairs⟩ true none none).baggage span = some header ∧
      getPairs .null incomingKey (updateFromHeader [] (ascii "baggage") header) =
        .object ((traceIdKey, .string [49, 50]) :: pairs) := by
  intro pairs span
  refine (baggage_round_trip (Scope.mk none none ⟨true, pairs⟩ true none none) span [49, 50] [] rfl rfl
    (fun h => by cases h) (by unfold IsPlain; decide +kernel) ⟨by decide, by decide⟩ fun p hp => ?_).1
  obtain rfl := List.mem_singleton.mp hp
  exact ⟨⟨by decide +kernel, by decide +kernel, by decide +kernel, by decide +kernel, by decide +kernel⟩, _, rfl, by decide +kernel⟩

end SentryNative.Dsc
