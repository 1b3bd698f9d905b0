import NumericEngine.Compile.Unit
import NumericEngine.Proofs.Lowering.Program
import NumericEngine.Proofs.Memory.Laws

/-!
# Places in a frame

The homes of registers, slots and shadows lie one after the other, between the
saved address of the result and the outgoing area. When all of them together
take less than `2 ^ 64` bytes, no two places share a byte; otherwise the sums
start again from zero, and places come to lie on others.
-/

namespace NumericEngine

open List
open Layout (alignUp roundUp)

/-- A record of the type has the descriptor of a buffer in it, in whatever depth. -/
inductive Ty.Describes : Ty → Prop
  | here {t : Ty} {rank : Nat} (h : t.layout.storage = .descriptor rank) : t.Describes
  | field {fs : List (String × Ty)} {d : String × Ty} (hd : d ∈ fs) (h : d.2.Describes) : (Ty.struct fs).Describes

namespace Code

variable {m : Ir.Module} {f : Ir.Function} {p : FramePlan} {r : Reg} {t : Ty} {id : TypeId}

theorem fieldsHoldBuffers_of_mem {fs : List (String × Ty)} (hd : d ∈ fs) (h : holdsBuffers d.2 = true) :
    fieldsHoldBuffers fs = true := by
  induction fs with
  | nil => cases hd
  | cons e fs ih =>
    rw [fieldsHoldBuffers, Bool.or_eq_true]
    rcases mem_cons.1 hd with rfl | hd
    · exact .inl h
    · exact .inr (ih hd)

theorem holdsBuffers_of_describes (h : t.Describes) : holdsBuffers t = true := by
  induction h with
  | @here t rank h =>
    cases t with
    | tensor e ds =>
      rw [holdsBuffers]
      cases hshape : (Ty.tensor e ds).fixedShape? with
      | none => rfl
      | some shape => simp [Ty.layout, Layout.container, hshape, Layout.plain] at h
    | vector e n => simp [Ty.layout, Layout.container, Ty.fixedShape?, Ty.dims?, Dim.extent?, Layout.plain] at h
    | _ => simp [Ty.layout, Layout.plain] at h
  | field hd _ ih =>
    rw [holdsBuffers]
    exact fieldsHoldBuffers_of_mem hd ih

/-! ## Homes in order -/

theorem map_placeTypes (offset : Nat) (ts : List Ty) :
    (placeTypes offset ts).1.map (·.layout) = ts.map Ty.layout := by
  induction ts generalizing offset with
  | nil => rfl
  | cons t ts ih => simp [placeTypes, ih]

theorem length_placeTypes (offset : Nat) (ts : List Ty) : (placeTypes offset ts).1.length = ts.length := by
  simpa using congrArg List.length (map_placeTypes offset ts)

theorem typesOf_eq_ok : typesOf m ids = .ok ts ↔ List.Forall₂ (fun id t => m.ty? id = some t) ids ts := by
  unfold typesOf
  rw [mapM_eq_ok]
  refine ⟨fun h => h.imp fun id t hid => ?_, fun h => h.imp fun id t hid => by rw [hid]⟩
  cases hty : m.ty? id with
  | none => simp [hty] at hid
  | some u => simpa [hty] using hid

theorem lookup_isSome {α β : Type} [BEq α] [LawfulBEq α] {l : List (α × β)} {a : α}
    (h : a ∈ l.map (·.1)) : ∃ b, l.lookup a = some b := by
  induction l with
  | nil => cases h
  | cons p l ih =>
    by_cases hp : a = p.1
    · exact ⟨p.2, by rw [lookup_cons, hp, beq_self_eq_true]⟩
    · obtain ⟨b, hb⟩ := ih (mem_of_ne_of_mem hp h)
      exact ⟨b, (lookup_cons_of_ne hp).trans hb⟩

theorem typeOf_eq_ok : typeOf m f r = .ok t ↔ m.regTy? f r = some t := by
  unfold typeOf
  cases m.regTy? f r <;> simp

def Home.extent (h : Home) : Extent := ⟨h.offset, h.layout.size⟩

/-- Aligned homes in the order of their addresses, between two bounds. -/
structure Ordered (homes : List Home) (first last : Nat) : Prop where
  le : first ≤ last
  inside : ∀ h ∈ homes, first ≤ h.offset ∧ h.extent.stop ≤ last
  order : homes.Pairwise fun a b => a.extent.stop ≤ b.offset
  aligned : ∀ h ∈ homes, h.layout.align ∣ h.offset

/-- The first offset behind homes of the types, over all numbers. -/
def placeEnd (offset : Nat) : List Ty → Nat
  | [] => offset
  | t :: ts => placeEnd (roundUp offset t.layout.align + t.layout.size) ts

/-- Homes whose end is a word are placed as they are over all numbers. -/
theorem ordered_placeTypes (offset : Nat) (ts : List Ty) (h : placeEnd offset ts < 2 ^ 64) :
    (placeTypes offset ts).2 = placeEnd offset ts ∧
      Ordered (placeTypes offset ts).1 offset (placeEnd offset ts) := by
  induction ts generalizing offset with
  | nil => exact ⟨rfl, Nat.le_refl _, nofun, .nil, nofun⟩
  | cons t ts ih =>
    have halign := t.isWidth_align
    obtain ⟨hend, hle, hinside, horder, haligned⟩ := ih _ h
    have hstop : roundUp offset t.layout.align + t.layout.size < 2 ^ 64 := Nat.lt_of_le_of_lt hle h
    have hstart : alignUp offset t.layout.align = roundUp offset t.layout.align :=
      Layout.alignUp_eq_roundUp halign.dvd (by omega)
    have hge := Layout.le_roundUp offset halign.pos
    simp only [placeTypes, hstart, Word.add_of_lt hstop]
    refine ⟨hend, (hge.trans (Nat.le_add_right _ _)).trans hle, forall_mem_cons.2 ⟨⟨hge, hle⟩, fun x hx => ?_⟩,
      pairwise_cons.2 ⟨fun x hx => (hinside x hx).1, horder⟩,
      forall_mem_cons.2 ⟨dvd_mul_left _ _, haligned⟩⟩
    exact ⟨(hge.trans (Nat.le_add_right _ _)).trans (hinside x hx).1, (hinside x hx).2⟩

theorem placeTypes_append (offset : Nat) (ts us : List Ty) :
    placeTypes offset (ts ++ us) = ((placeTypes offset ts).1 ++ (placeTypes (placeTypes offset ts).2 us).1,
      (placeTypes (placeTypes offset ts).2 us).2) := by
  induction ts generalizing offset with
  | nil => rfl
  | cons t ts ih => simp only [cons_append, placeTypes, ih]

theorem mem_rootsOf {i : Nat} (hh : homes[i]? = some h) (ht : tys[i]? = some t)
    (hbuffers : holdsBuffers t = true) : (h.offset, t) ∈ rootsOf homes tys := by
  refine mem_filterMap.2 ⟨(h, t), ?_, by simp [hbuffers]⟩
  exact mem_of_getElem? (getElem?_zip_eq_some.2 ⟨hh, ht⟩)

/-- The home of the `i`-th of the placed types. -/
theorem getElem?_placeTypes (offset : Nat) {i : Nat} (ht : ts[i]? = some t) :
    ∃ h, (placeTypes offset ts).1[i]? = some h ∧ h.layout = t.layout := by
  have hlayout : ((placeTypes offset ts).1.map (·.layout))[i]? = some t.layout := by
    rw [map_placeTypes, getElem?_map, ht]
    rfl
  exact Option.map_eq_some_iff.1 (getElem?_map .. ▸ hlayout)

theorem le_foldl_max {ns : List Nat} {n acc : Nat} (h : n ∈ ns ∨ n ≤ acc) : n ≤ ns.foldl max acc := by
  induction ns generalizing acc with
  | nil => exact h.resolve_left (nomatch ·)
  | cons k ns ih =>
    rw [foldl_cons]
    rcases h with h | h
    · rcases mem_cons.1 h with rfl | h
      · exact ih (.inr (Nat.le_max_right _ _))
      · exact ih (.inl h)
    · exact ih (.inr (h.trans (Nat.le_max_left _ _)))

/-- The type of an id, and what is placed for it, have the same number. -/
theorem getElem?_typesOf {ids : Array TypeId} {i : Nat} (h : typesOf m ids.toList = .ok ts)
    (hid : ids[i]? = some id) (ht : m.ty? id = some t) : ts[i]? = some t := by
  obtain ⟨u, hu, hty⟩ := forall₂_getElem?_left (typesOf_eq_ok.1 h) ((Array.getElem?_toList ..).trans hid)
  rw [hu, Option.some.inj (hty.symm.trans ht)]

/-! ## Plans -/

namespace FramePlan

/-- The shadow of a phi has the layout of its register. -/
def shadowHomes (p : FramePlan) : List Home :=
  p.shadows.reverse.map fun s => ⟨s.2, (p.regs[s.1.index.toNat]?.getD default).layout⟩

/-- The homes of registers and slots, and the shadows. -/
def homes (p : FramePlan) : List Home := p.regs.toList ++ (p.slots.toList ++ p.shadowHomes)

/-- All that a frame is made of: the saved address of the result, the homes, and the outgoing area. -/
def extents (p : FramePlan) : List Extent :=
  ⟨resultOffset, 8⟩ :: (p.homes.map Home.extent ++ [⟨p.outgoing, p.size - p.outgoing⟩])

/-- Bytes of a frame with homes of the types and an outgoing area, over all numbers. -/
def frameEnd (tys : List Ty) (outgoing : Nat) : Nat := roundUp (roundUp (placeEnd 8 tys) 8 + outgoing) 16

/-- Bytes of the frame of a function, over all numbers. -/
def space (m : Ir.Module) (f : Ir.Function) : Except Obstacle Nat := do
  let regTys ← typesOf m f.regTypes.toList
  let slotTys ← typesOf m f.slotTypes.toList
  let phiTys ← (shadowed f).mapM (typeOf m f)
  let needs ← (f.blocks.flatMap (·.instrs)).mapM (outgoingOf m f)
  return frameEnd (regTys ++ (slotTys ++ phiTys)) (needs.foldl max 0)

/-- What a plan is built from: the types of registers, of slots and of shadowed phis, and what instructions need
in the outgoing area. No sum on the way leaves the words. -/
structure Built (m : Ir.Module) (f : Ir.Function) (p : FramePlan) (regTys slotTys phiTys : List Ty)
    (ns : List Nat) : Prop where
  regs : typesOf m f.regTypes.toList = .ok regTys
  slots : typesOf m f.slotTypes.toList = .ok slotTys
  phis : (shadowed f).mapM (typeOf m f) = .ok phiTys
  needs : (f.blocks.flatMap (·.instrs)).mapM (outgoingOf m f) = .ok ns
  regHomes : p.regs.toList = (placeTypes 8 regTys).1
  slotHomes : p.slots.toList = (placeTypes (placeTypes 8 regTys).2 slotTys).1
  shadows : p.shadows = ((shadowed f).zip
    ((placeTypes (placeTypes (placeTypes 8 regTys).2 slotTys).2 phiTys).1.map (·.offset))).reverse
  outgoing : p.outgoing = alignUp (placeTypes 8 (regTys ++ (slotTys ++ phiTys))).2 8
  size : p.size = alignUp (Word.add p.outgoing (ns.foldl max 0)) 16
  word : frameEnd (regTys ++ (slotTys ++ phiTys)) (ns.foldl max 0) < 2 ^ 64
  small : p.size ≤ 32767
  roots : p.roots = rootsOf (placeTypes 8 regTys).1 regTys ++
    rootsOf (placeTypes (placeTypes 8 regTys).2 slotTys).1 slotTys ++
    rootsOf (placeTypes (placeTypes (placeTypes 8 regTys).2 slotTys).2 phiTys).1 phiTys

theorem built (h : build m f = .ok p) (hspace : space m f = .ok n) (hword : n < 2 ^ 64) :
    ∃ regTys slotTys phiTys needs, Built m f p regTys slotTys phiTys needs := by
  unfold build at h
  obtain ⟨regTys, hregs, h⟩ := Except.bind_eq_ok.1 h
  obtain ⟨slotTys, hslots, h⟩ := Except.bind_eq_ok.1 h
  obtain ⟨phiTys, hphis, h⟩ := Except.bind_eq_ok.1 h
  obtain ⟨needs, hneeds, h⟩ := Except.bind_eq_ok.1 h
  dsimp only at h
  split at h
  · cases h
  · rename_i hsize
    cases h
    rw [space, hregs, hslots, hphis, hneeds] at hspace
    cases hspace
    refine ⟨regTys, slotTys, phiTys, needs, hregs, hslots, hphis, hneeds, rfl, rfl, rfl, ?_, rfl, hword,
      Nat.le_of_not_lt hsize, rfl⟩
    simp only [placeTypes_append]
    rfl

namespace Built

variable {ns : List Nat} (h : Built m f p regTys slotTys phiTys ns)
include h

theorem reg_home (ht : m.regTy? f r = some t) : ∃ x, p.regs[r.index.toNat]? = some x ∧ x.layout = t.layout ∧
    (t.Describes → (x.offset, t) ∈ p.roots) := by
  obtain ⟨id, hid, ht⟩ := Option.bind_eq_some_iff.1 ht
  have hu := getElem?_typesOf h.regs hid ht
  obtain ⟨x, hx, hlayout⟩ := getElem?_placeTypes 8 hu
  refine ⟨x, by rw [← Array.getElem?_toList, h.regHomes, hx], hlayout, fun hd => ?_⟩
  rw [h.roots]
  exact mem_append_left _ (mem_append_left _ (mem_rootsOf hx hu (holdsBuffers_of_describes hd)))

theorem slot_home {k : Nat} (hid : f.slotTypes[k]? = some id) (ht : m.ty? id = some t) :
    ∃ x, p.slots[k]? = some x ∧ x.layout = t.layout ∧ (t.Describes → (x.offset, t) ∈ p.roots) := by
  have hu := getElem?_typesOf h.slots hid ht
  obtain ⟨x, hx, hlayout⟩ := getElem?_placeTypes (placeTypes 8 regTys).2 hu
  refine ⟨x, by rw [← Array.getElem?_toList, h.slotHomes, hx], hlayout, fun hd => ?_⟩
  rw [h.roots]
  exact mem_append_left _ (mem_append_right _ (mem_rootsOf hx hu (holdsBuffers_of_describes hd)))

theorem shadow_home (hs : s ∈ p.shadows) : s.1 ∈ shadowed f ∧ ∃ t, m.regTy? f s.1 = some t ∧
    (t.Describes → (s.2, t) ∈ p.roots) := by
  rw [h.shadows] at hs
  obtain ⟨i, hi⟩ := getElem?_of_mem (mem_reverse.1 hs)
  obtain ⟨hr, hoffset⟩ := getElem?_zip_eq_some.1 hi
  obtain ⟨t, ht, hty⟩ := forall₂_getElem?_left (mapM_eq_ok.1 h.phis) hr
  obtain ⟨x, hx, hoffset⟩ := Option.map_eq_some_iff.1 (getElem?_map .. ▸ hoffset)
  refine ⟨mem_of_getElem? hr, t, typeOf_eq_ok.1 hty, fun hd => ?_⟩
  rw [h.roots, ← hoffset]
  exact mem_append_right _ (mem_rootsOf hx ht (holdsBuffers_of_describes hd))

theorem lookup_shadows (hr : r ∈ shadowed f) : ∃ offset, p.shadows.lookup r = some offset := by
  refine lookup_isSome ?_
  rw [h.shadows, map_reverse, mem_reverse, map_fst_zip]
  · exact hr
  · simp [length_placeTypes, (mapM_eq_ok.1 h.phis).length_eq]

/-- The shadows are placed as their registers' types are. -/
theorem shadowHomes_eq :
    p.shadowHomes = (placeTypes (placeTypes (placeTypes 8 regTys).2 slotTys).2 phiTys).1 := by
  rw [shadowHomes, h.shadows, reverse_reverse]
  have htys : List.Forall₂ (fun r t => (p.regs[r.index.toNat]?.getD default).layout = Ty.layout t)
      (shadowed f) phiTys := (mapM_eq_ok.1 h.phis).imp fun r t ht => by
    obtain ⟨x, hx, hlayout, -⟩ := h.reg_home (typeOf_eq_ok.1 ht)
    rw [hx, ← hlayout]
    rfl
  clear h
  generalize (placeTypes (placeTypes 8 regTys).2 slotTys).2 = offset
  generalize shadowed f = rs at htys
  induction htys generalizing offset with
  | nil => rfl
  | cons hlayout _ ih => simp only [placeTypes, map_cons, zip_cons_cons, hlayout, ih]

theorem homes_eq : p.homes = (placeTypes 8 (regTys ++ (slotTys ++ phiTys))).1 := by
  rw [homes, h.regHomes, h.slotHomes, h.shadowHomes_eq, placeTypes_append, placeTypes_append]

/-- The homes end before the outgoing area, which has the room that is needed. -/
theorem bounds : ∃ last, Ordered p.homes 8 last ∧ last ≤ p.outgoing ∧ p.outgoing + ns.foldl max 0 ≤ p.size := by
  have hword := h.word
  unfold frameEnd at hword
  have hneeds := Layout.le_roundUp (roundUp (placeEnd 8 (regTys ++ (slotTys ++ phiTys))) 8 + ns.foldl max 0)
    (show 0 < 16 by decide)
  have hlast := Layout.le_roundUp (placeEnd 8 (regTys ++ (slotTys ++ phiTys))) (show 0 < 8 by decide)
  obtain ⟨hend, hordered⟩ := ordered_placeTypes 8 (regTys ++ (slotTys ++ phiTys)) (by omega)
  have hout : p.outgoing = roundUp (placeEnd 8 (regTys ++ (slotTys ++ phiTys))) 8 := by
    rw [h.outgoing, hend]
    exact Layout.alignUp_eq_roundUp (by decide) (by omega)
  have hsize : p.size = roundUp (p.outgoing + ns.foldl max 0) 16 := by
    rw [h.size, hout, Word.add_of_lt (by omega)]
    exact Layout.alignUp_eq_roundUp (by decide) hword
  refine ⟨_, h.homes_eq ▸ hordered, hout ▸ hlast, ?_⟩
  rw [hsize, hout]
  exact hneeds

theorem outgoing_room (hb : b ∈ f.blocks) (hi : i ∈ b.instrs) (hn : outgoingOf m f i = .ok n) :
    p.outgoing + n ≤ p.size := by
  obtain ⟨_, -, -, hroom⟩ := h.bounds
  obtain ⟨k, hk, hkn⟩ := forall₂_exists_right (mapM_eq_ok.1 h.needs) (mem_flatMap.2 ⟨b, hb, hi⟩)
  obtain rfl := Except.ok.inj (hkn.symm.trans hn)
  exact (Nat.add_le_add_left (le_foldl_max (.inl hk)) _).trans hroom

theorem record_room (hb : b ∈ f.blocks) (hi : i ∈ b.instrs)
    (hrecord : outgoingOf m f i = outgoingOf.record m f args) :
    ∃ tys, args.mapM (m.regTy? f) = some tys ∧ p.outgoing + (Ty.record tys).layout.size ≤ p.size := by
  obtain ⟨n, -, hn⟩ := forall₂_exists_right (mapM_eq_ok.1 h.needs) (mem_flatMap.2 ⟨b, hb, hi⟩)
  have hroom := h.outgoing_room hb hi hn
  rw [hrecord, outgoingOf.record] at hn
  split at hn
  · rename_i tys htys
    cases hn
    exact ⟨tys, htys, hroom⟩
  · cases hn

end Built

/-- When a frame over all numbers takes less than `2 ^ 64` bytes, no two of its saved address, its
homes, its shadows and its outgoing area have a byte in common, and all lie in the frame; homes are
aligned, and the frame is. The outgoing area has room for the argument record of every call and for the
indices of every element that is read. Registers and slots have homes, phis that need one have shadows,
and those that hold descriptors are roots. -/
theorem places_apart (h : build m f = .ok p) (hspace : space m f = .ok n) (hword : n < 2 ^ 64) :
    p.extents.Pairwise Extent.Apart ∧ (∀ e ∈ p.extents, e.stop ≤ p.size) ∧
    (∀ x ∈ p.homes, x.layout.align ∣ x.offset) ∧ 16 ∣ p.size ∧ p.size ≤ 32752 ∧
    (∀ b ∈ f.blocks, ∀ i ∈ b.instrs, match i with
      | .define _ (.call _ args) | .define _ (.callIndirect _ args) =>
        ∃ tys, args.mapM (m.regTy? f) = some tys ∧ p.outgoing + (Ty.record tys).layout.size ≤ p.size
      | .define _ (.extractElement _ indices) => p.outgoing + 8 * indices.length ≤ p.size
      | _ => True) ∧
    (∀ r t, m.regTy? f r = some t → ∃ x, p.regs[r.index.toNat]? = some x ∧ x.layout = t.layout ∧
      (t.Describes → (x.offset, t) ∈ p.roots)) ∧
    (∀ (k : Nat) id t, f.slotTypes[k]? = some id → m.ty? id = some t → ∃ x, p.slots[k]? = some x ∧
      x.layout = t.layout ∧ (t.Describes → (x.offset, t) ∈ p.roots)) ∧
    (∀ r ∈ shadowed f, ∃ offset, p.shadows.lookup r = some offset) ∧
    ∀ s ∈ p.shadows, s.1 ∈ shadowed f ∧ ∃ t, m.regTy? f s.1 = some t ∧ (t.Describes → (s.2, t) ∈ p.roots) := by
  obtain ⟨regTys, slotTys, phiTys, ns, hb⟩ := built h hspace hword
  obtain ⟨last, ⟨hle, hinside, horder, haligned⟩, hlast, hroom⟩ := hb.bounds
  have hout : p.outgoing ≤ p.size := (Nat.le_add_right _ _).trans hroom
  have hdvd : 16 ∣ p.size := hb.size ▸ Layout.dvd_alignUp _ (by decide)
  have hsmall := hb.small
  have hextents : p.extents.Pairwise fun a b => a.stop ≤ b.start := by
    refine pairwise_cons.2 ⟨fun e he => ?_, pairwise_append.2 ⟨?_, pairwise_singleton _ _, ?_⟩⟩
    · rcases mem_append.1 he with he | he
      · obtain ⟨x, hx, rfl⟩ := mem_map.1 he
        exact (hinside x hx).1
      · obtain rfl := mem_singleton.1 he
        exact hle.trans hlast
    · exact pairwise_map.2 horder
    · rintro _ ha _ he
      obtain ⟨x, hx, rfl⟩ := mem_map.1 ha
      obtain rfl := mem_singleton.1 he
      exact (hinside x hx).2.trans hlast
  refine ⟨hextents.imp Extent.apart_of_le, ?_, haligned, hdvd, by omega, fun b hb' i hi => ?_,
    fun r t => hb.reg_home, fun k id t => hb.slot_home, fun r => hb.lookup_shadows, fun s => hb.shadow_home⟩
  · refine forall_mem_cons.2 ⟨hle.trans (hlast.trans hout), forall_mem_append.2 ⟨fun e he => ?_, ?_⟩⟩
    · obtain ⟨x, hx, rfl⟩ := mem_map.1 he
      exact (hinside x hx).2.trans (hlast.trans hout)
    · rw [forall_mem_singleton]
      exact (Nat.add_sub_cancel' hout).le
  · split
    · exact hb.record_room hb' hi rfl
    · exact hb.record_room hb' hi rfl
    · exact hb.outgoing_room hb' hi rfl
    · trivial

/-- A loop that swaps two tensors. -/
def swapping : Ir.Module where
  types := ⟨#[.bool, .tensor .f64 [.dynamic]]⟩
  functions := [{
    id := ⟨0⟩, name := "swap", params := [⟨0⟩, ⟨1⟩, ⟨2⟩], retType := ⟨1⟩
    regTypes := #[⟨0⟩, ⟨1⟩, ⟨1⟩, ⟨1⟩, ⟨1⟩], slotTypes := #[]
    blocks := [
      ⟨⟨0⟩, "entry", [], .jump ⟨1⟩⟩,
      ⟨⟨1⟩, "loop", [.define ⟨3⟩ (.phi [(⟨0⟩, ⟨1⟩), (⟨1⟩, ⟨4⟩)]), .define ⟨4⟩ (.phi [(⟨0⟩, ⟨2⟩), (⟨1⟩, ⟨3⟩)])],
        .branch ⟨0⟩ ⟨1⟩ ⟨2⟩⟩,
      ⟨⟨2⟩, "exit", [], .ret ⟨3⟩⟩] }]

theorem places_apart_swapping : ∃ f ∈ swapping.functions, ∃ p, build swapping f = .ok p ∧ p.shadows.length = 2 ∧
    p.extents.Pairwise Extent.Apart ∧ ∀ s ∈ p.shadows, (s.2, .tensor .f64 [.dynamic]) ∈ p.roots := by
  have hbuild : (swapping.functions.any fun f => (space swapping f).toOption.any (· < 2 ^ 64) &&
      (build swapping f).toOption.any fun p => p.shadows.length = 2 &&
        p.shadows.all fun s => swapping.regTy? f s.1 = some (.tensor .f64 [.dynamic])) = true := by decide +kernel
  simp only [any_eq_true, Option.any_eq_true, Bool.and_eq_true, decide_eq_true_eq] at hbuild
  obtain ⟨f, hf, ⟨n, hn, hword⟩, p, hp, hlen, htys⟩ := hbuild
  have hp := Except.toOption_eq_some hp
  obtain ⟨hapart, -, -, -, -, -, -, -, -, hshadows⟩ := places_apart hp (Except.toOption_eq_some hn) hword
  refine ⟨f, hf, p, hp, hlen, hapart, fun s hs => ?_⟩
  obtain ⟨-, t, ht, hroot⟩ := hshadows s hs
  obtain rfl := Option.some.inj (ht.symm.trans (of_decide_eq_true (all_eq_true.1 htys s hs)))
  exact hroot (.here rfl)

/-- A function with a vector and a struct around it that take almost all addresses. Nothing reads the
struct, but its register has a home. -/
def overfull : Source.Program where
  functions := [{
    name := "overfull", ret := .i64
    params := [⟨"g", .function [] (.vector .f64 0xffffffffffffffe), {}⟩, ⟨"c", .bool, {}⟩, ⟨"n", .i64, {}⟩]
    body := [
      .mk (.letBinding "x" none true (.mk (.var "n") {})) {},
      .mk (.ite (.mk (.var "c") {}) [
        .mk (.letBinding "a" none false (.mk (.call "g" []) {})) {},
        .mk (.letBinding "s" none false (.mk (.struct [("v", .mk (.var "a") {}), ("c", .mk (.var "c") {})]) {}))
        {}, .mk (.assign "x" (.mk (.binary (.arith .add) (.mk (.var "n") {}) (.mk (.int 1) {}) false) {})) {}]
        []) {},
      .mk (.return (some (.mk (.var "x") {}))) {}] }]

/-- Its frame has 32 bytes, as the homes behind the struct start again behind the saved address of the result. The
parameter `n` and the phi for `x` share a home. -/
theorem overfull_homes_shared : ∃ u f p, ({ verify := false } : CompileOptions).compile overfull = .ok u ∧
    f ∈ u.module.functions ∧ build u.module f = .ok p ∧ p.size = 32 ∧ space u.module f = .ok (2 ^ 64 + 32) ∧
    ∃ n x, p.regs[2]? = some n ∧ p.regs[7]? = some x ∧ ¬ n.extent.Apart x.extent := by
  have hu : ((({ verify := false } : CompileOptions).compile overfull).toOption.any fun u =>
    u.module.functions.any fun f =>
      (build u.module f).toOption.any fun p => p.size = 32 && (space u.module f).toOption = some (2 ^ 64 + 32) &&
        p.regs[2]? = some ⟨24, Ty.i64.layout⟩ && p.regs[7]? = some ⟨24, Ty.i64.layout⟩) =
          true := by decide +kernel
  simp only [Option.any_eq_true, any_eq_true, Bool.and_eq_true, decide_eq_true_eq] at hu
  obtain ⟨u, hu, f, hf, p, hp, ⟨⟨hsize, hspace⟩, hn⟩, hx⟩ := hu
  refine ⟨u, f, p, Except.toOption_eq_some hu, hf, Except.toOption_eq_some hp, hsize,
    Except.toOption_eq_some hspace, _, _, hn, hx, fun hapart => ?_⟩
  exact hapart 24 (Nat.le_refl _) (by decide) ⟨Nat.le_refl _, by decide⟩

end FramePlan

end Code

end NumericEngine
