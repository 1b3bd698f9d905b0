import NumericEngine.Proofs.Code.Program

/-!
# All byte strings as code

Reading goes over whole slots from left to right; a slot with the opcode of a
wide load takes the next one with it, whatever that looks like. What is read is
written back as it was, but for the first half of such a second slot, which
means nothing and is written as zeros.
-/

namespace NumericEngine.Code

/-- What becomes of bytes, from a slot on: either the last slot holds a wide load, or they are
written back with zeros for what has no meaning. -/
inductive Scan : (slot : Nat) → List UInt8 → Except Nat (List UInt8) → Prop where
  | done (n : Nat) : Scan n [] (.ok [])
  | narrow {n : Nat} {s bs : List UInt8} {r : Except Nat (List UInt8)} (hs : s.length = 8)
    (hop : s.head? ≠ some Insn.lddw) (h : Scan (n + 1) bs r) : Scan n (s ++ bs) (r.map (s ++ ·))
  | wide {n : Nat} {s bs : List UInt8} {r : Except Nat (List UInt8)} (unused upper : List UInt8)
    (hs : s.length = 8) (hop : s.head? = some Insn.lddw) (hunused : unused.length = 4)
    (hupper : upper.length = 4) (h : Scan (n + 2) bs r) :
    Scan n (s ++ (unused ++ upper) ++ bs) (r.map (s ++ ([0, 0, 0, 0] ++ upper) ++ ·))
  | cut {n : Nat} {s : List UInt8} (hs : s.length = 8) (hop : s.head? = some Insn.lddw) : Scan n s (.error n)

/-- The instructions of a program that has one entry per slot. -/
def once : List Insn → List Insn
  | [] => []
  | [i] => [i]
  | i :: j :: p => if i.wide.isSome then i :: once p else i :: once (j :: p)

theorem once_cons {i : Insn} (h : i.wide = none) (p : List Insn) : once (i :: p) = i :: once p := by
  cases p <;> simp [once, h]

/-- Every entry of an encodable program stands in as many slots as it takes. -/
theorem bySlot_eq_flatMap (h : ∀ i ∈ p, i.Encodable) :
    bySlot p = p.flatMap fun i => if i.opcode = Insn.lddw then [i, i] else [i] := by
  induction p with
  | nil => rfl
  | cons i p ih =>
    rw [List.forall_mem_cons] at h
    rw [bySlot, List.flatMap_cons, ih h.2, Insn.slots]
    simp only [h.1.wide]
    split <;> rfl

/-! ## One slot -/

theorem join_nibbles (b : UInt8) : ((b >>> 4) <<< 4) ||| ((b &&& 0x0f) &&& 0x0f) = b := by
  have hall : ∀ a : Fin 256, let b := UInt8.ofNat a
      ((b >>> 4) <<< 4) ||| ((b &&& 0x0f) &&& 0x0f) = b := by decide +kernel
  simpa only [UInt8.ofNat_toNat] using hall ⟨b.toNat, b.toNat_lt⟩

theorem leBytes_two (c d : UInt8) :
    leBytes 2 (ofLeBytes [c, d]).toUInt16.toInt16.toUInt16.toUInt64 = [c, d] := by
  have hlt : (ofLeBytes [c, d]).toNat < 2 ^ 16 := toNat_ofLeBytes_lt (by simp)
  have hword : (ofLeBytes [c, d]).toUInt16.toInt16.toUInt16.toUInt64 = ofLeBytes [c, d] := by
    apply UInt64.toNat_inj.1
    simpa using hlt
  rw [hword]
  exact leBytes_ofLeBytes (show [c, d].length ≤ 8 by simp)

theorem leBytes_four (e f g h : UInt8) :
    leBytes 4 (ofLeBytes [e, f, g, h]).toUInt32.toInt32.toUInt32.toUInt64 = [e, f, g, h] := by
  have hlt : (ofLeBytes [e, f, g, h]).toNat < 2 ^ 32 := toNat_ofLeBytes_lt (by simp)
  have hword : (ofLeBytes [e, f, g, h]).toUInt32.toInt32.toUInt32.toUInt64 = ofLeBytes [e, f, g, h] := by
    apply UInt64.toNat_inj.1
    simpa using hlt
  rw [hword]
  exact leBytes_ofLeBytes (show [e, f, g, h].length ≤ 8 by simp)

theorem narrow_slot {s : List UInt8} (hs : s.length = 8) :
    ∃ i : Insn, (∀ bs, narrow (s ++ bs) = i :: narrow bs) ∧ s.head? = some i.opcode ∧ i.wide = none ∧
      i.encode = s ∧ leBytes 4 i.imm.toUInt32.toUInt64 = s.drop 4 := by
  obtain ⟨a, b, c, d, e, f, g, h, rfl⟩ : ∃ a b c d e f g h, s = [a, b, c, d, e, f, g, h] := by
    match s, hs with
    | [a, b, c, d, e, f, g, h], _ => exact ⟨a, b, c, d, e, f, g, h, rfl⟩
  refine ⟨Insn.ofSlot a b [c, d] [e, f, g, h], fun _ => rfl, rfl, rfl, ?_, leBytes_four e f g h⟩
  simp only [Insn.encode, Insn.ofSlot, join_nibbles, leBytes_two, leBytes_four]
  rfl

theorem encode_wide {i : Insn} (h : i.wide = none) (w : UInt32) :
    { i with wide := some w }.encode = i.encode ++ ([0, 0, 0, 0] ++ leBytes 4 w.toUInt64) := by
  simp [Insn.encode, h]

/-! ## Whole strings -/

theorem take_slot (hne : bs ≠ []) (h : bs.length % 8 = 0) :
    ∃ s rest, bs = s ++ rest ∧ s.length = 8 ∧ rest.length % 8 = 0 := by
  have hpos := List.length_pos_of_ne_nil hne
  exact ⟨bs.take 8, bs.drop 8, (List.take_append_drop 8 bs).symm, by simp; omega, by simp; omega⟩

theorem joinWide_scan (bs : List UInt8) (n : Nat) (h : bs.length % 8 = 0) :
    (∃ i, Scan n bs (.error i) ∧ joinWide n (narrow bs) = .error (.missingHalf i)) ∨
      ∃ bs' p, Scan n bs (.ok bs') ∧ joinWide n (narrow bs) = .ok p ∧ 8 * p.length = bs.length ∧
        encode (once p) = bs' := by
  -- by the length, for a wide load goes two slots ahead
  induction hlen : bs.length using Nat.strong_induction_on generalizing bs n with
  | _ k ih =>
    subst hlen
    by_cases hnil : bs = []
    · subst hnil
      exact .inr ⟨[], [], .done n, rfl, rfl, rfl⟩
    obtain ⟨s, rest, rfl, hs, hrest⟩ := take_slot hnil h
    obtain ⟨i, hnarrow, hhead, hnone, hencode, -⟩ := narrow_slot hs
    rw [hnarrow]
    unfold joinWide
    by_cases hop : i.opcode = Insn.lddw
    · rw [if_pos hop]
      have hlddw := hhead.trans (congrArg some hop)
      by_cases hend : rest = []
      · subst hend
        rw [List.append_nil]
        exact .inl ⟨n, .cut hs hlddw, rfl⟩
      obtain ⟨t, rest, rfl, ht, hrest⟩ := take_slot hend hrest
      obtain ⟨j, hnarrow, -, -, -, hupper⟩ := narrow_slot ht
      have hscan {r} (hr : Scan (n + 2) rest r) :
          Scan n (s ++ (t ++ rest)) (r.map (s ++ ([0, 0, 0, 0] ++ t.drop 4) ++ ·)) := by
        have hwide := Scan.wide (t.take 4) (t.drop 4) hs hlddw (by simp [ht]) (by simp [ht]) hr
        rwa [List.take_append_drop, List.append_assoc] at hwide
      rw [hnarrow]
      rcases ih rest.length (by simp [hs, ht]; omega) rest (n + 2) hrest rfl with
        ⟨m, hr, herror⟩ | ⟨bs', p, hr, hok, hp, hback⟩
      · exact .inl ⟨m, hscan hr, by simp only [herror]; rfl⟩
      · refine .inr ⟨_, _, hscan hr, by simp only [hok]; rfl, by simp [hs, ht]; omega, ?_⟩
        simp only [once, Option.isSome_some, if_true, encode, List.flatMap_cons,
          encode_wide hnone, hencode, hupper]
        simp only [encode] at hback
        simp [hback]
    · rw [if_neg hop]
      have hnot : s.head? ≠ some Insn.lddw := fun heq => hop (Option.some.inj (hhead.symm.trans heq))
      rcases ih rest.length (by simp [hs]) rest (n + 1) hrest rfl with
        ⟨m, hr, herror⟩ | ⟨bs', p, hr, hok, hp, hback⟩
      · exact .inl ⟨m, .narrow hs hnot hr, by rw [herror]; rfl⟩
      · refine .inr ⟨_, i :: p, .narrow hs hnot hr, by rw [hok]; rfl, by simp [hs]; omega, ?_⟩
        rw [once_cons hnone, ← hback, encode, List.flatMap_cons, hencode]
        rfl

/-- Code and bytes determine each other: a program is read back with its wide loads in both of their
slots. Bytes of whole slots are refused for a wide load in the last slot, or else they are read as
one entry per slot and written back as they were, up to the bytes without meaning. -/
theorem bytes_round_trip :
    (∀ p : List Insn, (∀ i ∈ p, i.Encodable) →
      decode (encode p) = .ok (p.flatMap fun i => if i.opcode = Insn.lddw then [i, i] else [i])) ∧
    ∀ bs : List UInt8, bs.length % 8 = 0 →
      (∃ i, Scan 0 bs (.error i) ∧ decode bs = .error (.missingHalf i)) ∨
      ∃ bs' p, Scan 0 bs (.ok bs') ∧ decode bs = .ok p ∧ p.length = bs.length / 8 ∧ encode (once p) = bs' := by
  refine ⟨fun p hp => ?_, fun bs hbs => ?_⟩
  · rw [decode_encode hp, bySlot_eq_flatMap hp]
  · rw [decode, if_neg (not_not.2 hbs)]
    refine (joinWide_scan bs 0 hbs).imp_right ?_
    rintro ⟨bs', p, hscan, hp, hlen, hback⟩
    exact ⟨bs', p, hscan, hp, by omega, hback⟩

/-- A wide load whose second slot looks like another one, and the end of the function. -/
def lookalike : List UInt8 := [0x18, 0x03, 0, 0, 1, 0, 0, 0, 0x18, 0xff, 0, 0, 2, 0, 0, 0,
    0x95, 0, 0, 0, 0, 0, 0, 0]

theorem bytes_round_trip_lookalike :
    decode (encode [.wideLoad 3 0x200000001, .exit]) =
      .ok [.wideLoad 3 0x200000001, .wideLoad 3 0x200000001, .exit] ∧
    ∃ bs' p, Scan 0 lookalike (.ok bs') ∧ decode lookalike = .ok p ∧ p.length = 3 ∧ encode (once p) = bs' := by
  have hall : ∀ i ∈ [Insn.wideLoad 3 0x200000001, .exit], i.Encodable :=
    List.forall_mem_cons.2 ⟨⟨by decide, by decide, by decide⟩,
      List.forall_mem_singleton.2 ⟨by decide, by decide, by decide⟩⟩
  have hread : ∀ i, decode lookalike ≠ .error (.missingHalf i) := nofun
  refine ⟨bytes_round_trip.1 _ hall, ?_⟩
  obtain ⟨i, -, hcut⟩ | h := bytes_round_trip.2 lookalike rfl
  · exact absurd hcut (hread i)
  · exact h

end NumericEngine.Code
