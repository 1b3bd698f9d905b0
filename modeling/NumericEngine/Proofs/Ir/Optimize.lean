import Mathlib.Data.List.Nodup
import Mathlib.Logic.Relation
import NumericEngine.Proofs.Ir.Change
import NumericEngine.Proofs.Value.Pool

/-!
# Optimisation passes as changes

Each pass changes a function in the sense of `Change`: dead definitions are read
by nothing, a trivial phi is replaced by the register that all its inputs come
down to, and a folded operation is replaced by the constant it gives.
-/

namespace NumericEngine.Ir

open List

@[simp] theorem Instr.mapUses_id (i : Instr) : i.mapUses id = i := by
  cases i with
  | define d rhs => exact congrArg (define d) rhs.mapUses_id
  | store => rfl

@[simp] theorem Terminator.mapUses_id (t : Terminator) : t.mapUses id = t := by
  cases t <;> rfl

variable {m m' : Module} {f : Function}

theorem Change.OnInstrs.keep_self {c : Change} {i : Instr}
    (hrest : c.OnInstrs m m' is is') (hid : c.subst = id) (huses : ∀ r ∈ i.uses, c.live r)
    (hfacts : ∀ d rhs w, i = .define d rhs → (d, w) ∈ c.facts →
      ∃ k v, rhs = .const k ∧ m.constants.get? k = some v ∧ v.bits? = some w) :
      c.OnInstrs m m' (i :: is) (i :: is') := by
  have h := OnInstrs.keep huses (fun d _ => by rw [hid]; rfl) hfacts hrest
  rwa [hid, Instr.mapUses_id] at h

theorem Change.onFunction_self (m m' : Module) (f : Function) : Change.OnFunction {} m m' f f := by
  refine ⟨rfl, ?_, fun r _ => ⟨rfl, by simp⟩, fun r => Nat.le_refl _, fun r t h => h⟩
  refine forall₂_same.2 fun b _ => ⟨rfl, ?_, (b.terminator.mapUses_id).symm, fun _ _ => trivial⟩
  induction b.instrs with
  | nil => exact .nil
  | cons i is ih => exact ih.keep_self rfl (fun _ _ => trivial) (by simp)

/-! ## Dead definitions -/

theorem onInstrs_live (h : ∀ i ∈ is, ∀ r ∈ i.uses, r ∈ used) :
    Change.OnInstrs { live := (· ∈ used) } m m' is (is.filter (·.live used)) := by
  induction is with
  | nil => exact .nil
  | cons i is ih =>
    obtain ⟨hi, his⟩ := forall_mem_cons.1 h
    by_cases hlive : i.live used = true
    · rw [filter_cons_of_pos hlive]
      exact (ih his).keep_self rfl hi (by simp)
    · rw [filter_cons_of_neg hlive]
      cases i with
      | define d rhs =>
        simp only [Instr.live, Instr.dst?, Instr.isRemovable, Bool.or_eq_true, Bool.not_eq_true',
          contains_iff_mem, not_or, Bool.not_eq_false] at hlive
        exact .dead hlive.1 hlive.2 (by simp) (ih his)
      | store => exact absurd rfl hlive

theorem removeDead_onFunction (f : Function) :
    Change.OnFunction { live := (· ∈ f.used) } m m' f f.removeDead.1 := by
  have huses : ∀ b ∈ f.blocks, (∀ i ∈ b.instrs, ∀ r ∈ i.uses, r ∈ f.used) ∧
      ∀ r ∈ b.terminator.uses, r ∈ f.used := by
    intro b hb
    constructor
    · intro i hi r hr
      exact mem_flatMap.2 ⟨b, hb, mem_append_left _ (mem_flatMap.2 ⟨i, hi, hr⟩)⟩
    · intro r hr
      exact mem_flatMap.2 ⟨b, hb, mem_append_right _ hr⟩
  refine ⟨rfl, ?_, fun r _ => ⟨rfl, by simp⟩, fun r => Nat.le_refl _, fun r t h => h⟩
  show List.Forall₂ _ f.blocks (f.blocks.map _)
  rw [forall₂_map_right_iff]
  exact forall₂_same.2 fun b hb => ⟨rfl, onInstrs_live (huses b hb).1,
    (b.terminator.mapUses_id).symm, (huses b hb).2⟩

/-! ## Trivial phis -/

theorem Instr.sole?_eq_some {i : Instr} (h : i.sole? = some (d, s)) :
    ∃ incoming, i = .define d (.phi incoming) ∧ (∃ p ∈ incoming, p.2 = s) ∧ s ≠ d ∧
      ∀ p ∈ incoming, p.2 = d ∨ p.2 = s := by
  unfold sole? at h
  split at h
  · rename_i _ incoming
    split at h
    · cases h
    · rename_i _ rest heq
      split at h
      · rename_i hall
        cases h
        have hmem : ∀ r, r ∈ s :: rest ↔ r ∈ incoming.map (·.2) ∧ r ≠ d := by
          intro r
          rw [← heq, mem_filter]
          simp
        obtain ⟨hin, hne⟩ := (hmem s).1 mem_cons_self
        obtain ⟨p, hp, hps⟩ := mem_map.1 hin
        refine ⟨incoming, rfl, ⟨p, hp, hps⟩, hne, fun q hq => ?_⟩
        by_cases hqd : q.2 = d
        · exact .inl hqd
        · refine .inr ?_
          rcases mem_cons.1 ((hmem q.2).2 ⟨mem_map_of_mem hq, hqd⟩) with h | h
          · exact h
          · exact eq_of_beq (all_eq_true.1 hall _ h)
      · cases h
  · cases h

theorem Function.mem_replacements (h : (d, s) ∈ f.replacements) :
    ∃ b ∈ f.blocks, ∃ i ∈ b.instrs, i.sole? = some (d, s) := by
  let P (acc : List (Reg × Reg)) : Prop := ∀ d s, (d, s) ∈ acc →
    ∃ b ∈ f.blocks, ∃ i ∈ b.instrs, i.sole? = some (d, s)
  suffices hall : P f.replacements from hall d s h
  refine List.foldlRecOn (motive := P) f.blocks _ (by simp [P]) fun acc hacc b hb => ?_
  refine List.foldlRecOn (motive := P) b.instrs _ hacc fun acc hacc i hi => ?_
  intro d s hmem
  split at hmem
  · rename_i d' s' hsole
    rcases mem_cons.1 hmem with heq | hmem
    · cases heq
      exact ⟨b, hb, i, hi, hsole⟩
    · exact hacc d s (mem_filter.1 hmem).1
  · exact hacc d s hmem

section Resolve

variable {replace : List (Reg × Reg)} {rank : Reg → Nat}

theorem resolve_le (hlt : ∀ d s, (d, s) ∈ replace → rank s < rank d) (n : Nat) (r : Reg) :
    rank (resolve replace n r) ≤ rank r := by
  induction n generalizing r with
  | zero => exact Nat.le_refl _
  | succ n ih =>
    unfold resolve
    split
    · rename_i r' hr'
      exact Nat.le_trans (ih r') (Nat.le_of_lt (hlt r r' (mem_of_lookup hr')))
    · exact Nat.le_refl _

/-- Replacements go to earlier registers, so following them comes to an end. -/
theorem resolve_succ (hlt : ∀ d s, (d, s) ∈ replace → rank s < rank d)
    (h : (replace.filter (rank ·.1 ≤ rank r)).length ≤ n) :
    resolve replace n r = resolve replace (n + 1) r := by
  induction n generalizing r with
  | zero =>
    have hnone : replace.lookup r = none := by
      cases hr : replace.lookup r with
      | none => rfl
      | some s =>
        have hnil := length_eq_zero_iff.1 (Nat.le_zero.1 h)
        have hmem := filter_eq_nil_iff.1 hnil _ (mem_of_lookup hr)
        simp at hmem
    simp [resolve, hnone]
  | succ n ih =>
    unfold resolve
    split
    · rename_i s hs
      refine ih (Nat.le_of_lt_succ (Nat.lt_of_lt_of_le ?_ h))
      have hsr := hlt r s (mem_of_lookup hs)
      have hfilter : replace.filter (rank ·.1 ≤ rank s) =
          (replace.filter (rank ·.1 ≤ rank r)).filter (rank ·.1 ≤ rank s) := by
        rw [filter_filter]
        refine filter_congr fun x _ => ?_
        by_cases hx : rank x.1 ≤ rank s
        · simp [hx, Nat.le_trans hx (Nat.le_of_lt hsr)]
        · simp [hx]
      -- the entry of `r` itself no longer counts
      rw [hfilter, length_filter_lt_length_iff_exists]
      refine ⟨(r, s), mem_filter.2 ⟨mem_of_lookup hs, by simp⟩, by simpa using hsr⟩
    · rfl

end Resolve

section RemovePhis

variable {ret : Ty} {entry : Entry}

theorem replacement_spec (hbody : f.body.Scoped (m.context f) ret f.params entry)
    (h : (d, s) ∈ f.replacements) : rank f.params s < rank f.params d ∧
      (∀ t, (m.context f).At d t → (m.context f).At s t) ∧
      ∀ b ∈ f.blocks, ∀ rhs, .define d rhs ∈ b.instrs →
        ∃ incoming, rhs = .phi incoming ∧ incoming ≠ [] ∧ ∀ p ∈ incoming, p.2 = d ∨ p.2 = s := by
  obtain ⟨b, hb, i, hi, hsole⟩ := Function.mem_replacements h
  obtain ⟨incoming, rfl, ⟨q, hq, hqs⟩, -, hall⟩ := Instr.sole?_eq_some hsole
  obtain ⟨j, hj⟩ := Function.body_of_mem hb
  refine ⟨?_, ?_, ?_⟩
  · obtain ⟨p, rest, rfl⟩ := exists_cons_of_ne_nil (ne_nil_of_mem hq)
    have hlt := hbody.first j _ _ hj d _ hi p rfl d (mem_dsts hi)
    rcases hall p mem_cons_self with hpd | hps
    · exact absurd (hpd ▸ hlt) (Nat.lt_irrefl _)
    · exact hps ▸ hlt
  · rintro t ⟨u, hu, hsame⟩
    obtain ⟨v, hv, hphi⟩ := (hbody.sequence j _ _ hj).typed hi
    cases hu.symm.trans hv
    exact (hqs ▸ hphi q hq).same hsame
  · intro b' hb' rhs hrhs
    obtain ⟨j', hj'⟩ := Function.body_of_mem hb'
    obtain rfl := hbody.unique j j' _ _ _ _ hj hj' d (mem_dsts hi) (mem_dsts hrhs)
    rw [← (Prod.mk.inj (Option.some.inj (hj.symm.trans hj'))).1] at hrhs
    obtain rfl := (hbody.sequence j _ _ hj).eq_of_define hi hrhs
    exact ⟨incoming, rfl, ne_nil_of_mem hq, hall⟩

theorem onInstrs_filter (hkeep : ∀ i ∈ is, keep i = true → ∀ d, i.dst? = some d → ρ d = d)
    (hdrop : ∀ i ∈ is, keep i = false → ∃ d incoming, i = .define d (.phi incoming) ∧
      incoming ≠ [] ∧ ∀ p ∈ incoming, ρ p.2 = ρ d) :
    Change.OnInstrs { subst := ρ } m m' is ((is.filter keep).map (·.mapUses ρ)) := by
  induction is with
  | nil => exact .nil
  | cons i is ih =>
    rw [forall_mem_cons] at hkeep hdrop
    have hrest := ih hkeep.2 hdrop.2
    cases hi : keep i with
    | true =>
      rw [filter_cons_of_pos hi]
      exact .keep (fun _ _ => trivial) (hkeep.1 hi) (by simp) hrest
    | false =>
      rw [filter_cons_of_neg (by simp [hi])]
      obtain ⟨d, incoming, rfl, hne, hin⟩ := hdrop.1 hi
      exact .phi (fun p hp => ⟨trivial, hin p hp⟩) hne (by simp) hrest

theorem resolve_onFunction (m' : Module) (hbody : f.body.Scoped (m.context f) ret f.params entry) :
    Change.OnFunction { subst := resolve f.replacements (f.replacements.length + 1) } m m' f
      { f with blocks := f.blocks.map (·.substitute f.replacements) } := by
  have hlt : ∀ d s, (d, s) ∈ f.replacements → rank f.params s < rank f.params d :=
    fun d s h => (replacement_spec hbody h).1
  have hsubst : ∀ r, f.replacements.lookup r = none →
      resolve f.replacements (f.replacements.length + 1) r = r := by
    intro r hr
    simp [resolve, hr]
  refine ⟨rfl, ?_, ?_, resolve_le hlt _, ?_⟩
  · rw [forall₂_map_right_iff]
    refine forall₂_same.2 fun b hb => ⟨rfl, onInstrs_filter ?_ ?_, rfl, fun _ _ => trivial⟩
    · intro i hi hkeep d hd
      refine hsubst d ?_
      cases hlookup : f.replacements.lookup d with
      | none => rfl
      | some s =>
        -- the register defined is that of a phi, which would have gone
        cases i with
        | store => cases hd
        | define d' rhs =>
          cases hd
          obtain ⟨incoming, rfl, -⟩ := (replacement_spec hbody (mem_of_lookup hlookup)).2.2 b hb rhs hi
          simp [Instr.isPhi, Instr.dst?, hlookup] at hkeep
    · intro i hi hdrop
      simp only [Bool.not_eq_false', Bool.and_eq_true] at hdrop
      obtain ⟨hphi, hdst⟩ := hdrop
      cases i with
      | store => cases hphi
      | define d rhs =>
        simp only [Instr.dst?, Option.any_some] at hdst
        obtain ⟨s, hs⟩ := Option.isSome_iff_exists.1 hdst
        obtain ⟨incoming, rfl, hne, hin⟩ := (replacement_spec hbody (mem_of_lookup hs)).2.2 b hb rhs hi
        refine ⟨d, incoming, rfl, hne, fun p hp => ?_⟩
        rcases hin p hp with heq | heq
        · rw [heq]
        · rw [heq]
          -- following one replacement less comes to the same
          have hstep : resolve f.replacements (f.replacements.length + 1) d =
              resolve f.replacements f.replacements.length s := by
            simp [resolve, hs]
          rw [hstep]
          exact (resolve_succ hlt (length_filter_le _ _)).symm
  · intro r hr
    refine ⟨hsubst r ?_, by simp⟩
    cases hlookup : f.replacements.lookup r with
    | none => rfl
    | some s =>
      obtain ⟨b, hb, i, hi, hsole⟩ := Function.mem_replacements (mem_of_lookup hlookup)
      obtain ⟨incoming, rfl, -⟩ := Instr.sole?_eq_some hsole
      obtain ⟨j, hj⟩ := Function.body_of_mem hb
      exact absurd (mem_dsts hi) (hbody.fresh j _ _ hj r hr)
  · intro r t hr
    show (m.context f).At (resolve f.replacements (f.replacements.length + 1) r) t
    generalize f.replacements.length + 1 = n
    induction n generalizing r with
    | zero => exact hr
    | succ n ih =>
      unfold resolve
      split
      · rename_i s hs
        exact ih s ((replacement_spec hbody (mem_of_lookup hs)).2.1 t hr)
      · exact hr

theorem removePhis_onFunction (m' : Module) (hbody : f.body.Scoped (m.context f) ret f.params entry) :
    ∃ c : Change, c.OnFunction m m' f f.removePhis.1 := by
  by_cases hempty : f.replacements.isEmpty = true
  · exact ⟨{}, by simpa [Function.removePhis, hempty] using Change.onFunction_self m m' f⟩
  · exact ⟨_, by simpa [Function.removePhis, hempty] using resolve_onFunction m' hbody⟩

end RemovePhis

/-! ## Constants -/

/-- A definition of a register by a constant with a word. -/
def IsConst (m : Module) (is : List Instr) (d : Reg) (w : UInt64) : Prop :=
  ∃ k v, .define d (.const k) ∈ is ∧ m.constants.get? k = some v ∧ v.bits? = some w

theorem Function.mem_known (h : (d, w) ∈ f.known m.constants) : ∃ b ∈ f.blocks, IsConst m b.instrs d w := by
  let P (acc : Known) : Prop := ∀ d w, (d, w) ∈ acc → ∃ b ∈ f.blocks, IsConst m b.instrs d w
  suffices hall : P (f.known m.constants) from hall d w h
  refine List.foldlRecOn (motive := P) f.blocks _ (by simp [P]) fun acc hacc b hb => ?_
  refine List.foldlRecOn (motive := P) b.instrs _ hacc fun acc hacc i hi => ?_
  intro d w hmem
  split at hmem
  · rename_i dst k
    split at hmem
    · rename_i w' hw'
      rcases mem_cons.1 hmem with heq | hmem
      · cases heq
        obtain ⟨v, hv, hbits⟩ := Option.bind_eq_some_iff.1 hw'
        exact ⟨b, hb, k, v, hi, hv, hbits⟩
      · exact hacc d w hmem
    · exact hacc d w hmem
  · exact hacc d w hmem

/-- A pool with more constants, all of which are scalars. -/
structure Gains (p q : ConstantPool) : Prop extends p.Le q where
  scalars : ∀ v ∈ q.values, v ∈ p.values ∨ ∃ k w, v = .ofScalar k w

theorem Gains.refl (p : ConstantPool) : Gains p p := ⟨.refl p, fun _ h => .inl h⟩

theorem Gains.trans (h : Gains p q) (h' : Gains q r) : Gains p r :=
  ⟨h.toLe.trans h'.toLe, fun v hv => (h'.scalars v hv).elim (h.scalars v) .inr⟩

theorem Rhs.fold?_scalar {rhs : Rhs} (h : rhs.fold? known = some v) : ∃ k w, v = .ofScalar k w := by
  unfold fold? at h
  split at h
  · split at h
    · obtain ⟨w, -, rfl⟩ := Option.map_eq_some_iff.1 h
      exact ⟨_, w, rfl⟩
    · cases h
  · split at h
    · cases h
      exact ⟨.bool, _, rfl⟩
    · cases h
  · obtain ⟨a, -, h⟩ := Option.bind_eq_some_iff.1 h
    obtain ⟨w, -, rfl⟩ := Option.map_eq_some_iff.1 h
    exact ⟨_, w, rfl⟩
  · obtain ⟨w, -, rfl⟩ := Option.map_eq_some_iff.1 h
    exact ⟨_, _, rfl⟩
  · cases h

theorem gains_intern {rhs : Rhs} (h : rhs.fold? known = some v)
    (p : ConstantPool) : Gains p (p.intern v).2 := by
  refine ⟨p.le_intern v, fun u hu => ?_⟩
  rcases ConstantPool.mem_of_mem_intern hu with hu | rfl
  · exact .inl hu
  · exact .inr (Rhs.fold?_scalar h)

namespace Folding

/-- What folding instructions does to what it carries along. -/
structure Grows (ds : List Reg) (s s' : Folding) : Prop where
  pool : Gains s.constants s'.constants
  known : s.known ⊆ s'.known
  learned : ∀ d w, (d, w) ∈ s'.known → (d, w) ∈ s.known ∨ d ∈ ds

theorem Grows.refl (ds : List Reg) (s : Folding) : Grows ds s s :=
  ⟨.refl _, fun _ h => h, fun _ _ h => .inl h⟩

theorem Grows.trans (h : Grows ds s s') (h' : Grows ds' s' s'') : Grows (ds ++ ds') s s'' := by
  refine ⟨h.pool.trans h'.pool, fun _ hx => h'.known (h.known hx), fun d w hw => ?_⟩
  rcases h'.learned d w hw with hw | hd
  · exact (h.learned d w hw).imp_right (mem_append_left _)
  · exact .inr (mem_append_right _ hd)

theorem mem_learn {s : Folding} (h : (e, w) ∈ s.learn d v) :
    (e, w) ∈ s.known ∨ e = d ∧ v.bits? = some w := by
  unfold learn at h
  split at h
  · rename_i w' hw'
    rcases mem_cons.1 h with heq | h
    · cases heq
      exact .inr ⟨rfl, hw'⟩
    · exact .inl h
  · exact .inl h

theorem known_subset_learn (s : Folding) (d : Reg) (v : Value) : s.known ⊆ s.learn d v := by
  unfold learn
  split
  · exact subset_cons_self _ _
  · exact fun _ h => h

theorem instr_grows (s : Folding) (i : Instr) : Grows (dsts [i]) s (s.instr i).2 := by
  unfold Folding.instr
  split
  · rename_i d rhs
    split
    · rename_i v hv
      refine ⟨gains_intern hv s.constants, known_subset_learn s d v, fun e w hw => ?_⟩
      exact (mem_learn hw).imp_right fun h => by simp [dsts, Instr.dst?, h.1]
    · exact .refl _ s
  · exact .refl _ s

theorem instrs_grows (s : Folding) (is : List Instr) : Grows (dsts is) s (s.instrs is).2 := by
  induction is generalizing s with
  | nil => exact .refl _ s
  | cons i is ih =>
    have h := (instr_grows s i).trans (ih (s.instr i).2)
    rwa [show dsts [i] ++ dsts is = dsts (i :: is) from (filterMap_append ..).symm] at h

theorem blocks_grows (s : Folding) (bs : List Block) :
    Grows (bs.flatMap fun b => dsts b.instrs) s (s.blocks bs).2 := by
  induction bs generalizing s with
  | nil => exact .refl _ s
  | cons b bs ih => exact (instrs_grows s b.instrs).trans (ih (s.instrs b.instrs).2)

/-- The constant that replaces an operation is in every pool that comes after. -/
theorem get?_of_intern {p : ConstantPool} (hpool : (p.intern v).2.Le m'.constants)
    (hsize : m'.constants.size ≤ 2 ^ 32) : m'.constants.get? (p.intern v).1 = some v :=
  hpool.get? _ _ (ConstantPool.get?_intern (Nat.le_trans hpool.size hsize))

theorem instrs_onInstrs (hsize : m'.constants.size ≤ 2 ^ 32) {s : Folding}
    (hpool : (s.instrs is).2.constants.Le m'.constants) (hK : (s.instrs is).2.known ⊆ K)
    (hK' : ∀ d ∈ dsts is, ∀ w, (d, w) ∈ K → (d, w) ∈ (s.instrs is).2.known)
    (hconst : ∀ d ∈ dsts is, ∀ w, (d, w) ∈ s.known → IsConst m is d w)
    (hnodup : (dsts is).Nodup) : Change.OnInstrs { facts := K } m m' is (s.instrs is).1 := by
  induction is generalizing s with
  | nil => exact .nil
  | cons i is ih =>
    have hgrow := instr_grows s i
    have hgrows := instrs_grows (s.instr i).2 is
    have hnodup : (dsts [i] ++ dsts is).Nodup := by
      rwa [show dsts [i] ++ dsts is = dsts (i :: is) from (filterMap_append ..).symm]
    have hdisjoint : ∀ d, i.dst? = some d → d ∉ dsts is := fun d hd hmem =>
      (nodup_append.1 hnodup).2.2 d (by simp [dsts, hd]) d hmem rfl
    have hrest : Change.OnInstrs { facts := K } m m' is ((s.instr i).2.instrs is).1 := by
      refine ih hpool hK (fun d hd => hK' d (mem_dsts_cons hd)) (fun d hd w hw => ?_)
        (nodup_append.1 hnodup).2.1
      have hne : i.dst? ≠ some d := fun h => hdisjoint d h hd
      have hw : (d, w) ∈ s.known := (hgrow.learned d w hw).resolve_right (by simpa [dsts] using hne)
      obtain ⟨k, v, hmem, hk⟩ := hconst d (mem_dsts_cons hd) w hw
      rcases mem_cons.1 hmem with rfl | hmem
      · exact absurd rfl hne
      · exact ⟨k, v, hmem, hk⟩
    -- what is known of the register defined here was learned here or is a constant of the code
    have hfact : ∀ d w, i.dst? = some d → (d, w) ∈ K → (d, w) ∈ (s.instr i).2.known :=
      fun d w hd hw => (hgrows.learned d w
        (hK' d (mem_filterMap.2 ⟨i, mem_cons_self, hd⟩) w hw)).resolve_right (hdisjoint d hd)
    have hhead : ∀ d rhs w, i = .define d rhs → (d, w) ∈ s.known →
        ∃ k v, rhs = .const k ∧ m.constants.get? k = some v ∧ v.bits? = some w := by
      rintro d rhs w rfl hw
      obtain ⟨k, v, hmem, hk⟩ := hconst d mem_cons_self w hw
      rcases mem_cons.1 hmem with heq | hmem
      · cases heq
        exact ⟨k, v, rfl, hk⟩
      · exact absurd (mem_dsts hmem) (hdisjoint d rfl)
    have hkeep (hsame : (s.instr i) = (i, s)) :
        Change.OnInstrs { facts := K } m m' (i :: is) (s.instrs (i :: is)).1 := by
      have h := hrest.keep_self rfl (fun _ _ => trivial) fun d rhs w hi hw =>
        hhead d rhs w hi (by simpa [hsame] using hfact d w (by simp [hi, Instr.dst?]) hw)
      simpa only [Folding.instrs, hsame] using h
    cases i with
    | store => exact hkeep rfl
    | define d rhs =>
      cases hv : rhs.fold? s.known with
      | none => exact hkeep (by simp only [Folding.instr, hv])
      | some v =>
        have hinstr : s.instr (.define d rhs) = (.define d (.const (s.constants.intern v).1),
            { known := s.learn d v, constants := (s.constants.intern v).2, folded := s.folded + 1 }) := by
          simp only [Folding.instr, hv]
        have hle : (s.constants.intern v).2.Le m'.constants := by
          simpa only [hinstr] using hgrows.pool.toLe.trans hpool
        have hword : ∀ w, (d, w) ∈ K → v.bits? = some w := by
          intro w hw
          have hw := hfact d w rfl hw
          rw [hinstr] at hw
          rcases mem_learn hw with hw | ⟨-, hw⟩
          · obtain ⟨k, u, rfl, -⟩ := hhead d rhs w rfl hw
            cases hv
          · exact hw
        have h := hrest.fold rfl (fun x hx => hK (hgrows.known (hgrow.known hx))) hv
          (get?_of_intern hle hsize) hword
        simpa only [Folding.instrs, hinstr] using h

theorem blocks_onBlocks (hsize : m'.constants.size ≤ 2 ^ 32) {s : Folding}
    (hpool : (s.blocks bs).2.constants.Le m'.constants) (hK : (s.blocks bs).2.known ⊆ K)
    (hK' : ∀ d ∈ bs.flatMap (fun b => dsts b.instrs), ∀ w, (d, w) ∈ K →
      (d, w) ∈ (s.blocks bs).2.known)
    (hconst : ∀ b ∈ bs, ∀ d ∈ dsts b.instrs, ∀ w, (d, w) ∈ s.known → IsConst m b.instrs d w)
    (hnodup : (bs.flatMap fun b => dsts b.instrs).Nodup) :
    List.Forall₂ (Change.OnBlock { facts := K } m m') bs (s.blocks bs).1 := by
  induction bs generalizing s with
  | nil => exact .nil
  | cons b bs ih =>
    have hgrow := instrs_grows s b.instrs
    have hgrows := blocks_grows (s.instrs b.instrs).2 bs
    rw [flatMap_cons] at hK' hnodup
    obtain ⟨hnodup₁, hnodup₂, hdisjoint⟩ := nodup_append.1 hnodup
    have hconst := forall_mem_cons.1 hconst
    refine .cons ⟨rfl, ?_, (b.terminator.mapUses_id).symm, fun _ _ => trivial⟩ ?_
    · refine instrs_onInstrs hsize (hgrows.pool.toLe.trans hpool) (fun x hx => hK (hgrows.known hx)) ?_
        hconst.1 hnodup₁
      intro d hd w hw
      exact (hgrows.learned d w (hK' d (mem_append_left _ hd) w hw)).resolve_right
        fun h => hdisjoint d hd d h rfl
    · refine ih hpool hK (fun d hd => hK' d (mem_append_right _ hd)) ?_ hnodup₂
      intro b' hb' d hd w hw
      refine hconst.2 b' hb' d hd w ((hgrow.learned d w hw).resolve_right fun h => ?_)
      exact hdisjoint d h d (mem_flatMap.2 ⟨b', hb', hd⟩) rfl

end Folding

section FoldConstants

variable {ret : Ty} {entry : Entry}

theorem Body.Scoped.nodup_dsts (hbody : f.body.Scoped (m.context f) ret f.params entry) :
    (f.blocks.flatMap fun b => dsts b.instrs).Nodup := by
  have hat : ∀ i (h : i < f.blocks.length),
      f.body i = some (f.blocks[i].instrs, some f.blocks[i].terminator) := by
    intro i h
    simp [Function.body, h]
  refine nodup_flatMap.2 ⟨fun b hb => ?_, pairwise_iff_getElem.2 fun i j hi hj hij r hr hr' => ?_⟩
  · obtain ⟨i, hi⟩ := Function.body_of_mem hb
    exact (hbody.sequence i _ _ hi).nodup
  · exact Nat.ne_of_lt hij (hbody.unique i j _ _ _ _ (hat i hi) (hat j hj) r hr hr')

theorem foldConstants_onFunction (hbody : f.body.Scoped (m.context f) ret f.params entry)
    (hpool : (f.foldConstants m.constants).2.1.Le m'.constants) (hsize : m'.constants.size ≤ 2 ^ 32) :
    ∃ c : Change, c.OnFunction m m' f (f.foldConstants m.constants).1 := by
  let s : Folding := { known := f.known m.constants, constants := m.constants }
  have hknown : ∀ d w, (d, w) ∈ s.known → ∃ b ∈ f.blocks, IsConst m b.instrs d w :=
    fun d w h => Function.mem_known h
  refine ⟨{ facts := (s.blocks f.blocks).2.known }, rfl, ?_, fun r hr => ⟨rfl, fun w hw => ?_⟩,
    fun r => Nat.le_refl _, fun r t h => h⟩
  · refine Folding.blocks_onBlocks hsize hpool (fun _ h => h) (fun _ _ _ h => h) ?_ hbody.nodup_dsts
    intro b hb d hd w hw
    obtain ⟨b', hb', k, v, hmem, hk⟩ := hknown d w hw
    obtain ⟨i, hi⟩ := Function.body_of_mem hb
    obtain ⟨j, hj⟩ := Function.body_of_mem hb'
    obtain rfl := hbody.unique i j _ _ _ _ hi hj d hd (mem_dsts hmem)
    rw [← (Prod.mk.inj (Option.some.inj (hi.symm.trans hj))).1] at hmem
    exact ⟨k, v, hmem, hk⟩
  · have hnot : ∀ b ∈ f.blocks, r ∉ dsts b.instrs := fun b hb => by
      obtain ⟨i, hi⟩ := Function.body_of_mem hb
      exact hbody.fresh i _ _ hi r hr
    rcases (Folding.blocks_grows s f.blocks).learned r w hw with hw | hw
    · obtain ⟨b, hb, k, v, hmem, -⟩ := hknown r w hw
      exact hnot b hb (mem_dsts hmem)
    · obtain ⟨b, hb, hmem⟩ := mem_flatMap.1 hw
      exact hnot b hb hmem

theorem gains_foldConstants (f : Function) (p : ConstantPool) : Gains p (f.foldConstants p).2.1 :=
  (Folding.blocks_grows { known := f.known p, constants := p } f.blocks).pool

end FoldConstants

/-! ## Passes in turn -/

/-- A module, before and after any number of changes. -/
abbrev Module.ChangesTo : Module → Module → Prop := Relation.ReflTransGen Module.Changes

theorem Module.ChangesTo.wellFormed (h : m.ChangesTo m') (hm : m.WellFormed) : m'.WellFormed := by
  induction h with
  | refl => exact hm
  | tail _ hstep ih => exact hstep.wellFormed ih

section Replace

variable {types : TypeTable} {p q : ConstantPool} {fs gs : List Function} {f f' : Function}
  {c : Change}

theorem Module.ChangesTo.of_onFunction (hpool : p.Le q)
    (hc : c.OnFunction ⟨types, p, fs ++ f :: gs⟩ ⟨types, q, fs ++ f' :: gs⟩ f f') :
    Module.ChangesTo ⟨types, p, fs ++ f :: gs⟩ ⟨types, q, fs ++ f' :: gs⟩ := by
  refine .single ⟨rfl, hpool.get?, ?_⟩
  refine rel_append (forall₂_same.2 fun g _ => ⟨{}, Change.onFunction_self _ _ g⟩)
    (.cons ⟨c, hc⟩ (forall₂_same.2 fun g _ => ⟨{}, Change.onFunction_self _ _ g⟩))

section

variable (hm : Module.WellFormed ⟨types, p, fs ++ f :: gs⟩)
include hm

theorem scoped_of_wellFormed :
    ∃ entry ret, f.body.Scoped (Module.context ⟨types, p, fs ++ f :: gs⟩ f) ret f.params entry := by
  obtain ⟨entry, ret, -, -, hbody⟩ := (hm f (by simp)).code
  exact ⟨entry, ret, hbody⟩

theorem changesTo_foldConstants (hsize : (f.foldConstants p).2.1.size ≤ 2 ^ 32) :
    Module.ChangesTo ⟨types, p, fs ++ f :: gs⟩
      ⟨types, (f.foldConstants p).2.1, fs ++ (f.foldConstants p).1 :: gs⟩ := by
  obtain ⟨entry, ret, hbody⟩ := scoped_of_wellFormed hm
  let m' : Module := ⟨types, (f.foldConstants p).2.1, fs ++ (f.foldConstants p).1 :: gs⟩
  obtain ⟨c, hc⟩ := foldConstants_onFunction hbody (.refl m'.constants) hsize
  exact .of_onFunction (gains_foldConstants f p).toLe hc

theorem changesTo_removePhis :
    Module.ChangesTo ⟨types, p, fs ++ f :: gs⟩ ⟨types, p, fs ++ f.removePhis.1 :: gs⟩ := by
  obtain ⟨entry, ret, hbody⟩ := scoped_of_wellFormed hm
  obtain ⟨c, hc⟩ := removePhis_onFunction ⟨types, p, fs ++ f.removePhis.1 :: gs⟩ hbody
  exact .of_onFunction (.refl p) hc

end

theorem changesTo_removeDead :
    Module.ChangesTo ⟨types, p, fs ++ f :: gs⟩ ⟨types, p, fs ++ f.removeDead.1 :: gs⟩ :=
  .of_onFunction (.refl p) (removeDead_onFunction f)

theorem changesTo_round (hm : Module.WellFormed ⟨types, p, fs ++ f :: gs⟩)
    (hsize : (f.round level p).2.1.size ≤ 2 ^ 32) :
    Module.ChangesTo ⟨types, p, fs ++ f :: gs⟩
      ⟨types, (f.round level p).2.1, fs ++ (f.round level p).1 :: gs⟩ := by
  have hfold := changesTo_foldConstants hm hsize
  have hphis : Module.ChangesTo ⟨types, (f.round level p).2.1, fs ++ (f.foldConstants p).1 :: gs⟩
      ⟨types, (f.round level p).2.1, fs ++
        (if 2 ≤ level then (f.foldConstants p).1.removePhis else ((f.foldConstants p).1, 0)).1 :: gs⟩ := by
    split
    · exact changesTo_removePhis (hfold.wellFormed hm)
    · exact .refl
  exact hfold.trans (hphis.trans changesTo_removeDead)

theorem gains_round (level : Nat) (f : Function) (p : ConstantPool) :
    Gains p (f.round level p).2.1 := gains_foldConstants f p

theorem gains_rounds (level : Nat) (f : Function) (p : ConstantPool) (total : Savings) :
    Gains p (f.rounds level fuel p total).2.1 := by
  induction fuel generalizing f p total with
  | zero => exact .refl p
  | succ fuel ih =>
    unfold Function.rounds
    simp only
    split
    · exact gains_round level f p
    · exact (gains_round level f p).trans (ih _ _ _)

theorem changesTo_rounds (hm : Module.WellFormed ⟨types, p, fs ++ f :: gs⟩)
    (hsize : (f.rounds level fuel p total).2.1.size ≤ 2 ^ 32) :
    Module.ChangesTo ⟨types, p, fs ++ f :: gs⟩
      ⟨types, (f.rounds level fuel p total).2.1, fs ++ (f.rounds level fuel p total).1 :: gs⟩ := by
  induction fuel generalizing f p total with
  | zero => exact .refl
  | succ fuel ih =>
    unfold Function.rounds at hsize ⊢
    simp only at hsize ⊢
    split at hsize
    · rename_i hdone
      rw [if_pos hdone]
      exact changesTo_round hm hsize
    · rename_i hdone
      rw [if_neg hdone]
      have hround := changesTo_round hm (Nat.le_trans (gains_rounds level _ _ _).size hsize)
      exact hround.trans (ih (hround.wellFormed hm) hsize)

theorem optimizeAll_cons (level : Nat) (g : Function) (gs : List Function) (p : ConstantPool)
    (total : Savings) : optimizeAll level (g :: gs) p total =
      ((g.optimize level p).1 ::
        (optimizeAll level gs (g.optimize level p).2.1 (total + (g.optimize level p).2.2)).1,
      (optimizeAll level gs (g.optimize level p).2.1 (total + (g.optimize level p).2.2)).2) := rfl

theorem gains_optimizeAll (level : Nat) (gs : List Function) (p : ConstantPool) (total : Savings) :
    Gains p (optimizeAll level gs p total).2.1 := by
  induction gs generalizing p total with
  | nil => exact .refl p
  | cons g gs ih =>
    rw [optimizeAll_cons]
    exact (gains_rounds level g p {}).trans (ih _ _)

theorem changesTo_optimizeAll (fs : List Function) (hm : Module.WellFormed ⟨types, p, fs ++ gs⟩)
    (hsize : (optimizeAll level gs p total).2.1.size ≤ 2 ^ 32) :
    Module.ChangesTo ⟨types, p, fs ++ gs⟩
      ⟨types, (optimizeAll level gs p total).2.1, fs ++ (optimizeAll level gs p total).1⟩ := by
  induction gs generalizing fs p total with
  | nil => exact .refl
  | cons g gs ih =>
    rw [optimizeAll_cons] at hsize ⊢
    have hone : Module.ChangesTo ⟨types, p, fs ++ g :: gs⟩
        ⟨types, (g.optimize level p).2.1, fs ++ (g.optimize level p).1 :: gs⟩ :=
      changesTo_rounds hm (Nat.le_trans (gains_optimizeAll level gs _ _).size hsize)
    generalize g.optimize level p = o at hone hsize ⊢
    have hrest := ih (fs ++ [o.1]) (by simpa using hone.wellFormed hm) hsize
    exact hone.trans (by simpa using hrest)

end Replace

/-- The optimiser changes a module step by step. -/
theorem Module.changesTo_optimize (hm : m.WellFormed)
    (hsize : (m.optimize level).1.constants.size ≤ 2 ^ 32) : m.ChangesTo (m.optimize level).1 := by
  unfold optimize at hsize ⊢
  split
  · exact .refl
  · rename_i hlevel
    rw [if_neg hlevel] at hsize
    exact changesTo_optimizeAll [] hm hsize

end NumericEngine.Ir
