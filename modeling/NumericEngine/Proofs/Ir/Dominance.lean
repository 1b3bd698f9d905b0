import NumericEngine.Ir.Dominance
import Mathlib.Data.Finset.Prod
import Mathlib.Data.Finset.Card

/-!
# Dominance is exact

The sweeps that compute dominators only ever take members from the sets, so they
settle. In a settled state every set is what the equations ask for, which makes
it exact: a block is in the set of a reachable block when every path from the
entry leads through it, and only then.
-/

namespace NumericEngine.Ir

open List

namespace Preds

variable {b : Nat}

/-- One block leads to another. -/
def Edge (preds : Preds) (p b : Nat) : Prop := ∃ ps, preds[b]? = some ps ∧ p ∈ ps

/-- The blocks on a path from the entry, the latest first. -/
inductive Path (preds : Preds) : Nat → List Nat → Prop
  | start : Path preds 0 [0]
  | step {p b : Nat} {l : List Nat} (path : Path preds p l) (edge : preds.Edge p b) : Path preds b (b :: l)

def Reached (preds : Preds) (b : Nat) : Prop := ∃ l, preds.Path b l

variable {preds : Preds}

theorem Edge.lt (h : preds.Edge p b) : b < preds.length := by
  obtain ⟨ps, hps, -⟩ := h
  exact (List.getElem?_eq_some_iff.1 hps).1

theorem Path.mem (h : preds.Path b l) : b ∈ l := by
  cases h with
  | start | step => exact mem_cons_self

theorem Reached.lt (hn : 0 < preds.length) (h : preds.Reached b) : b < preds.length := by
  obtain ⟨l, hl⟩ := h
  cases hl with
  | start => exact hn
  | step _ edge => exact edge.lt

/-! ## Reachability -/

theorem length_reach (preds : Preds) (n : Nat) : (preds.reach n).length = preds.length := by
  induction n with
  | zero => simp [reach]
  | succ n ih => simp [reach, grow, ih]

theorem mem_grow {s : BlockSet} (hs : s.length = preds.length) : (preds.grow s).getD b false = true ↔
      s.getD b false = true ∨ ∃ p, preds.Edge p b ∧ s.getD p false = true := by
  simp only [grow, getD_eq_getElem?_getD, getElem?_zipWith]
  by_cases hb : b < preds.length
  · have hb' : b < s.length := hs ▸ hb
    simp [getElem?_eq_getElem hb, getElem?_eq_getElem hb', Edge]
  · have hb' : ¬b < s.length := hs ▸ hb
    simp [getElem?_eq_none (Nat.not_lt.1 hb), getElem?_eq_none (Nat.not_lt.1 hb'), Edge]

theorem mem_reach_zero (hn : 0 < preds.length) : (preds.reach 0).getD b false = true ↔ b = 0 := by
  by_cases hb : b < preds.length
  · simp [reach, getD_eq_getElem?_getD, hb]
  · simp [reach, getD_eq_getElem?_getD, hb]
    omega

theorem reached_of_reach (hn : 0 < preds.length)
    (h : (preds.reach n).getD b false = true) : preds.Reached b := by
  induction n generalizing b with
  | zero =>
    obtain rfl := (mem_reach_zero hn).1 h
    exact ⟨_, .start⟩
  | succ n ih =>
    rcases (mem_grow (length_reach preds n)).1 h with h | ⟨p, hedge, hp⟩
    · exact ih h
    · obtain ⟨l, hl⟩ := ih hp
      exact ⟨_, hl.step hedge⟩

/-- The members of a set, as a finite set of indices. -/
def members (s : BlockSet) : Finset Nat := (Finset.range s.length).filter fun b => s.getD b false = true

theorem mem_members : b ∈ members s ↔ s.getD b false = true := by
  simp only [members, Finset.mem_filter, Finset.mem_range, and_iff_right_iff_imp]
  intro h
  by_contra hb
  simp [getD_eq_getElem?_getD, getElem?_eq_none (Nat.not_lt.1 hb)] at h

theorem reach_grows (hn : 0 < preds.length) (n : Nat) :
    n + 1 ≤ (members (preds.reach n)).card ∨ ∀ p b, preds.Edge p b →
      (preds.reach n).getD p false = true → (preds.reach n).getD b false = true := by
  induction n with
  | zero =>
    refine .inl (Finset.card_pos.2 ⟨0, mem_members.2 ((mem_reach_zero hn).2 rfl)⟩)
  | succ n ih =>
    have hstep := fun b => mem_grow (length_reach preds n) (b := b)
    by_cases hclosed : ∀ p b, preds.Edge p b →
        (preds.reach n).getD p false = true → (preds.reach n).getD b false = true
    · -- a closed set stays as it is
      refine .inr fun p b hedge hp => ?_
      have hsame : ∀ b, (preds.reach (n + 1)).getD b false = true → (preds.reach n).getD b false = true :=
        fun b hb => ((hstep b).1 hb).elim id fun ⟨q, hq, hm⟩ => hclosed q b hq hm
      exact (hstep b).2 (.inl (hclosed p b hedge (hsame p hp)))
    · refine .inl ?_
      have hcard := ih.resolve_right hclosed
      simp only [not_forall] at hclosed
      obtain ⟨p, b, hedge, hp, hb⟩ := hclosed
      have hlt : members (preds.reach n) ⊂ members (preds.reach (n + 1)) := by
        refine Finset.ssubset_iff_of_subset (fun c hc => ?_) |>.2 ⟨b, ?_, fun h => hb (mem_members.1 h)⟩
        · exact mem_members.2 ((hstep c).2 (.inl (mem_members.1 hc)))
        · exact mem_members.2 ((hstep b).2 (.inr ⟨p, hedge, hp⟩))
      have := Finset.card_lt_card hlt
      omega

theorem mem_reachable (hn : 0 < preds.length) : preds.reachable.getD b false = true ↔ preds.Reached b := by
  have hclosed := (reach_grows hn preds.length).resolve_left fun h => by
    have hle := Finset.card_le_card (Finset.filter_subset
      (fun b => (preds.reach preds.length).getD b false = true)
      (Finset.range (preds.reach preds.length).length))
    rw [Finset.card_range, length_reach] at hle
    unfold members at h
    rw [length_reach] at h
    omega
  have hzero : ∀ n, (preds.reach n).getD 0 false = true := by
    intro n
    induction n with
    | zero => exact (mem_reach_zero hn).2 rfl
    | succ n ih => exact (mem_grow (length_reach preds n)).2 (.inl ih)
  refine ⟨reached_of_reach hn, ?_⟩
  rintro ⟨l, hl⟩
  induction hl with
  | start => exact hzero _
  | step _ hedge ih => exact hclosed _ _ hedge ih

end Preds

/-- Every path from the entry to `b` leads through `a`. -/
def Preds.Dominates (preds : Preds) (a b : Nat) : Prop := ∀ l, preds.Path b l → a ∈ l

namespace Dominators

variable {preds : Preds} {d : Dominators}

/-! ## States of the sweeps -/

/-- The sets of a state: there is one for each reachable block, and all have the same length. -/
structure Formed (preds : Preds) (d : Dominators) : Prop where
  length : d.length = preds.length
  sets : ∀ (b : Nat) (s : BlockSet), d[b]? = some (some s) → s.length = preds.length
  reached : ∀ b : Nat, (∃ s, d[b]? = some (some s)) ↔ preds.Reached b

theorem dominates_iff : d.dominates a b = true ↔ ∃ s, d[b]? = some (some s) ∧ s.getD a false = true := by
  unfold dominates
  split
  · rename_i s hs
    simp [hs]
  · rename_i hnone
    simp only [Bool.false_eq_true, false_iff, not_exists, not_and]
    exact fun s hs => absurd hs (hnone s)

theorem Formed.lt (hd : d.Formed preds) (h : d.dominates a b = true) :
    a < preds.length ∧ b < preds.length := by
  obtain ⟨s, hs, ha⟩ := dominates_iff.1 h
  refine ⟨hd.sets b s hs ▸ ?_, hd.length ▸ (List.getElem?_eq_some_iff.1 hs).1⟩
  by_contra hlt
  simp [getD_eq_getElem?_getD, getElem?_eq_none (Nat.not_lt.1 hlt)] at ha

theorem mem_meet {s t : BlockSet} (h : s.length = t.length) (a : Nat) :
    (meet s t).getD a false = true ↔ s.getD a false = true ∧ t.getD a false = true := by
  simp only [meet, getD_eq_getElem?_getD, getElem?_zipWith]
  by_cases ha : a < s.length
  · have ha' : a < t.length := h ▸ ha
    simp [getElem?_eq_getElem ha, getElem?_eq_getElem ha']
  · simp [getElem?_eq_none (Nat.not_lt.1 ha)]

/-- What is left of a set after a meet with the dominators of a block, if it has any. -/
def within (d : Dominators) (s : BlockSet) (p : Nat) : BlockSet :=
  match d[p]? with
  | some (some s') => meet s s'
  | _ => s

theorem refine_eq (d : Dominators) (n : Nat) (ps : List Nat) (b : Nat) :
    refine d n ps b = (ps.foldl d.within (List.replicate n true)).set b true := rfl

theorem mem_foldl_within (hd : d.Formed preds) (ps : List Nat) {s : BlockSet}
    (hs : s.length = preds.length) : (ps.foldl d.within s).length = preds.length ∧
      ∀ a, (ps.foldl d.within s).getD a false = true ↔
        s.getD a false = true ∧ ∀ p ∈ ps, preds.Reached p → d.dominates a p = true := by
  induction ps generalizing s with
  | nil => exact ⟨hs, fun a => by simp⟩
  | cons p ps ih =>
    simp only [foldl_cons, forall_mem_cons]
    by_cases hp : preds.Reached p
    · obtain ⟨t, ht⟩ := (hd.reached p).2 hp
      have hlen := hd.sets p t ht
      have hmeet : (meet s t).length = preds.length := by simp [meet, hs, hlen]
      obtain ⟨hcommon, hmem⟩ := ih hmeet
      have hwithin : d.within s p = meet s t := by simp [within, ht]
      rw [hwithin]
      refine ⟨hcommon, fun a => ?_⟩
      rw [hmem a, mem_meet (hs.trans hlen.symm), and_assoc]
      simp only [hp, forall_const, dominates_iff (d := d) (b := p), ht, Option.some.injEq, exists_eq_left']
    · have hnone : ∀ t, d[p]? ≠ some (some t) := fun t ht => hp ((hd.reached p).1 ⟨t, ht⟩)
      have hwithin : d.within s p = s := by
        unfold within
        split
        · rename_i t ht
          exact absurd ht (hnone t)
        · rfl
      rw [hwithin]
      simpa [hp] using ih hs

theorem refine_spec (hd : d.Formed preds) (ps : List Nat) (b : Nat) :
    (refine d preds.length ps b).length = preds.length ∧ ∀ a,
      (refine d preds.length ps b).getD a false = true ↔ a < preds.length ∧
        (a = b ∨ ∀ p ∈ ps, preds.Reached p → d.dominates a p = true) := by
  obtain ⟨hlen, hmem⟩ := mem_foldl_within hd ps (s := List.replicate preds.length true) (by simp)
  refine ⟨by simpa [refine_eq] using hlen, fun a => ?_⟩
  rw [refine_eq, getD_eq_getElem?_getD, getElem?_set]
  by_cases hba : b = a
  · subst hba
    by_cases hb : b < preds.length
    · simp [hlen, hb]
    · simp [hlen, hb]
  · have hall : (List.replicate preds.length true).getD a false = true ↔ a < preds.length := by
      by_cases ha : a < preds.length <;> simp [getD_eq_getElem?_getD, ha]
    rw [if_neg hba, ← getD_eq_getElem?_getD, hmem a, hall]
    simp [Ne.symm hba]

/-! ## One block -/

/-- Refines the set of one block. -/
def update (n b : Nat) (ps : List Nat) (d : Dominators) : Dominators :=
  match d[b]? with
  | some (some _) => d.set b (some (refine d n ps b))
  | _ => d

theorem sweepFrom_cons (n b : Nat) (d : Dominators) (ps : List Nat) (rest : Preds) :
    sweepFrom n b d (ps :: rest) = sweepFrom n (b + 1) (update n b ps d) rest := rfl

theorem dominates_update (hd : d.Formed preds) (b : Nat) (ps : List Nat) :
    (update preds.length b ps d).dominates a c = true ↔
      if c = b then preds.Reached b ∧ a < preds.length ∧
        (a = b ∨ ∀ p ∈ ps, preds.Reached p → d.dominates a p = true)
      else d.dominates a c = true := by
  by_cases hb : preds.Reached b
  · obtain ⟨s, hs⟩ := (hd.reached b).2 hb
    have hlt : b < d.length := (List.getElem?_eq_some_iff.1 hs).1
    have heq : update preds.length b ps d = d.set b (some (refine d preds.length ps b)) := by
      simp [update, hs]
    rw [heq, dominates_iff, getElem?_set]
    by_cases hcb : c = b
    · subst hcb
      have hrefine := (refine_spec hd ps c).2 a
      rw [getD_eq_getElem?_getD] at hrefine
      simp [hlt, hb, hrefine]
    · rw [if_neg (Ne.symm hcb), if_neg hcb, dominates_iff]
  · have hnone : ∀ t, d[b]? ≠ some (some t) := fun t ht => hb ((hd.reached b).1 ⟨t, ht⟩)
    have heq : update preds.length b ps d = d := by
      unfold update
      split
      · rename_i t ht
        exact absurd ht (hnone t)
      · rfl
    rw [heq]
    split
    · rename_i hcb
      subst hcb
      simp only [hb, false_and, iff_false]
      intro h
      obtain ⟨t, ht, -⟩ := dominates_iff.1 h
      exact hnone t ht
    · rfl

theorem Formed.update (hd : d.Formed preds) (b : Nat) (ps : List Nat) :
    (update preds.length b ps d).Formed preds := by
  unfold Dominators.update
  split
  · rename_i s hs
    have hlt : b < d.length := (List.getElem?_eq_some_iff.1 hs).1
    refine ⟨by simpa using hd.length, fun c t ht => ?_, fun c => ?_⟩
    · rw [getElem?_set] at ht
      split at ht
      · simp only [Option.some.injEq] at ht
        exact ht ▸ (refine_spec hd ps b).1
      · exact hd.sets c t ht
    · rw [← hd.reached c, getElem?_set]
      by_cases hbc : b = c
      · subst hbc
        exact ⟨fun _ => ⟨s, hs⟩, fun _ => ⟨refine d preds.length ps b, by simp [hlt]⟩⟩
      · simp [hbc]
  · exact hd

theorem Formed.ext {e : Dominators} (hd : d.Formed preds) (he : e.Formed preds)
    (h : ∀ a b, d.dominates a b = true ↔ e.dominates a b = true) : d = e := by
  refine ext_getElem? fun b => ?_
  by_cases hlt : b < preds.length
  · obtain ⟨x, hx⟩ : ∃ x, d[b]? = some x := ⟨_, getElem?_eq_getElem (hd.length ▸ hlt)⟩
    obtain ⟨y, hy⟩ : ∃ y, e[b]? = some y := ⟨_, getElem?_eq_getElem (he.length ▸ hlt)⟩
    rw [hx, hy]
    have hiff := (hd.reached b).trans (he.reached b).symm
    rw [hx, hy] at hiff
    cases x with
    | none =>
      cases y with
      | none => rfl
      | some t => exact absurd (hiff.2 ⟨t, rfl⟩) (by simp)
    | some s =>
      obtain ⟨t, ht⟩ := hiff.1 ⟨s, rfl⟩
      cases ht
      have hs := hd.sets b s hx
      have ht := he.sets b t hy
      congr 2
      refine ext_getElem (hs.trans ht.symm) fun a ha ha' => ?_
      have hab := h a b
      simp only [dominates_iff, hx, hy, Option.some.injEq, exists_eq_left', getD_eq_getElem?_getD,
        getElem?_eq_getElem ha, getElem?_eq_getElem ha', Option.getD_some] at hab
      exact Bool.eq_iff_iff.2 hab
  · rw [getElem?_eq_none (by rw [hd.length]; omega), getElem?_eq_none (by rw [he.length]; omega)]

/-! ## Sweeps -/

/-- A state whose sets hold all that a refinement would keep. -/
structure Closing (preds : Preds) (d : Dominators) : Prop where
  formed : d.Formed preds
  entry : ∀ a, d.dominates a 0 = true ↔ a = 0
  keeps : ∀ a b, 0 < b → preds.Reached b → a < preds.length →
    (a = b ∨ ∀ p, preds.Edge p b → preds.Reached p → d.dominates a p = true) → d.dominates a b = true
  exact : ∀ a b, preds.Reached b → a < preds.length → preds.Dominates a b → d.dominates a b = true

theorem dominates_of_edge (hb : preds.Dominates a b) (hne : a ≠ b) (hedge : preds.Edge p b) :
    preds.Dominates a p := by
  intro l hl
  rcases mem_cons.1 (hb _ (hl.step hedge)) with h | h
  · exact absurd h hne
  · exact h

section

variable (hd : d.Closing preds)
include hd

theorem mem_update (hps : preds[b]? = some ps) :
    (update preds.length b ps d).dominates a c = true ↔ if c = b then preds.Reached b ∧ a < preds.length ∧
      (a = b ∨ ∀ p, preds.Edge p b → preds.Reached p → d.dominates a p = true)
      else d.dominates a c = true := by
  have hedge : ∀ p, preds.Edge p b ↔ p ∈ ps := fun p => by simp [Preds.Edge, hps]
  simp only [hedge]
  exact dominates_update hd.formed b ps

theorem le_of_update (hb : 0 < b) (hps : preds[b]? = some ps)
    (h : (update preds.length b ps d).dominates a c = true) : d.dominates a c = true := by
  rw [mem_update hd hps] at h
  split at h
  · rename_i hcb
    exact hcb ▸ hd.keeps a b hb h.1 h.2.1 h.2.2
  · exact h

theorem Closing.update (hb : 0 < b)
    (hps : preds[b]? = some ps) : (update preds.length b ps d).Closing preds where
  formed := hd.formed.update b ps
  entry a := by
    rw [mem_update hd hps, if_neg (by omega)]
    exact hd.entry a
  keeps a c hc hreached ha h := by
    have hold : a = c ∨ ∀ p, preds.Edge p c → preds.Reached p → d.dominates a p = true :=
      h.imp_right fun h p hedge hp => le_of_update hd hb hps (h p hedge hp)
    rw [mem_update hd hps]
    split
    · rename_i hcb
      subst hcb
      exact ⟨hreached, ha, hold⟩
    · exact hd.keeps a c hc hreached ha hold
  exact a c hreached ha h := by
    rw [mem_update hd hps]
    split
    · rename_i hcb
      subst hcb
      refine ⟨hreached, ha, or_iff_not_imp_left.2 fun hne p hedge hp => hd.exact a p hp ha ?_⟩
      exact dominates_of_edge h hne hedge
    · exact hd.exact a c hreached ha h

/-- What a sweep over the blocks from `b` on does: it takes members, and when it takes none all
these blocks have the sets that the equations ask for. -/
theorem Closing.sweepFrom (hb : 0 < b) (hrest : preds.drop b = rest) :
    (sweepFrom preds.length b d rest).Closing preds ∧
      (∀ a c, (Dominators.sweepFrom preds.length b d rest).dominates a c = true → d.dominates a c = true) ∧
      ((∀ a c, d.dominates a c = true → (Dominators.sweepFrom preds.length b d rest).dominates a c = true) →
        ∀ a c p, b ≤ c → d.dominates a c = true → a ≠ c → preds.Edge p c → preds.Reached p →
          d.dominates a p = true) := by
  induction rest generalizing b d with
  | nil =>
    refine ⟨hd, fun _ _ h => h, fun _ a c p hbc _ _ hedge => ?_⟩
    have := drop_eq_nil_iff.1 hrest
    have := hedge.lt
    omega
  | cons ps rest ih =>
    have hlt : b < preds.length := by
      by_contra hlt
      rw [drop_eq_nil_of_le (Nat.not_lt.1 hlt)] at hrest
      cases hrest
    have hps : preds[b]? = some ps := by
      rw [← head?_drop, hrest]
      rfl
    have hdrop : preds.drop (b + 1) = rest := by
      rw [← tail_drop, hrest]
      rfl
    have hstep := fun a c => le_of_update (a := a) (c := c) hd hb hps
    obtain ⟨hclosing, hle, hsettled⟩ := ih (hd.update hb hps) (Nat.succ_pos b) hdrop
    rw [sweepFrom_cons]
    refine ⟨hclosing, fun a c h => hstep a c (hle a c h), fun hall a c p hbc hac hne hedge hp => ?_⟩
    -- nothing is taken at this block, nor at a later one
    have hup : ∀ a c, d.dominates a c = true ↔
        (Dominators.update preds.length b ps d).dominates a c = true := fun a c =>
      ⟨fun h => hle a c (hall a c h), hstep a c⟩
    rcases Nat.eq_or_lt_of_le hbc with rfl | hbc
    · have h := (hup a b).1 hac
      rw [mem_update hd hps, if_pos rfl] at h
      exact h.2.2.resolve_left hne p hedge hp
    · exact (hup a p).2 (hsettled (fun a c h => hall a c ((hup a c).2 h)) a c p hbc
        ((hup a c).1 hac) hne hedge hp)

/-- A state that sweeps leave as it is. -/
structure Settled (preds : Preds) (d : Dominators) : Prop where
  closing : d.Closing preds
  still : sweep preds d = d

theorem sweep_spec : (sweep preds d).Closing preds ∧
    ∀ a c, (sweep preds d).dominates a c = true → d.dominates a c = true := by
  obtain ⟨hclosing, hle, -⟩ := hd.sweepFrom Nat.one_pos (drop_one (l := preds))
  exact ⟨hclosing, hle⟩

end

theorem Settled.edge (hd : d.Settled preds) (hab : d.dominates a b = true) (hne : a ≠ b)
    (hedge : preds.Edge p b) (hp : preds.Reached p) : d.dominates a p = true := by
  obtain ⟨-, -, hsettled⟩ := hd.closing.sweepFrom Nat.one_pos (drop_one (l := preds))
  rcases Nat.eq_zero_or_pos b with rfl | hb
  · exact absurd ((hd.closing.entry a).1 hab) hne
  · refine hsettled (fun a c h => ?_) a b p hb hab hne hedge hp
    show (sweep preds d).dominates a c = true
    rwa [hd.still]

/-- The members of all sets. -/
def total (preds : Preds) (d : Dominators) : Finset (Nat × Nat) :=
  (Finset.range preds.length ×ˢ Finset.range preds.length).filter fun q => d.dominates q.1 q.2 = true

theorem mem_total (hd : d.Formed preds) : q ∈ d.total preds ↔ d.dominates q.1 q.2 = true := by
  simp only [total, Finset.mem_filter, Finset.mem_product, Finset.mem_range, and_iff_right_iff_imp]
  exact fun h => hd.lt h

/-- Sweeps settle, since each one that changes anything takes a member. -/
theorem settled_settle (hd : d.Closing preds) (hfuel : (d.total preds).card < fuel) :
    (settle preds fuel d).Settled preds := by
  induction fuel generalizing d with
  | zero => omega
  | succ fuel ih =>
    obtain ⟨hclosing, hle⟩ := sweep_spec hd
    unfold settle
    dsimp only
    split
    · rename_i heq
      exact ⟨hd, heq⟩
    · rename_i hne
      refine ih hclosing (Nat.lt_of_lt_of_le (Finset.card_lt_card ?_) (Nat.le_of_lt_succ hfuel))
      refine Finset.ssubset_iff_subset_ne.2 ⟨fun q hq => ?_, fun heq => hne ?_⟩
      · exact (mem_total hd.formed).2 (hle _ _ ((mem_total hclosing.formed).1 hq))
      · refine hclosing.formed.ext hd.formed fun a b => ⟨hle a b, fun h => ?_⟩
        have hq : (a, b) ∈ (sweep preds d).total preds := heq ▸ (mem_total hd.formed).2 h
        exact (mem_total hclosing.formed).1 hq

theorem settle_eq_iterate (preds : Preds) (fuel : Nat) (d : Dominators) :
    ∃ k ≤ fuel, settle preds fuel d = (sweep preds)^[k] d := by
  induction fuel generalizing d with
  | zero => exact ⟨0, Nat.le_refl 0, rfl⟩
  | succ fuel ih =>
    unfold settle
    dsimp only
    split
    · exact ⟨0, Nat.zero_le _, rfl⟩
    · obtain ⟨k, hk, heq⟩ := ih (sweep preds d)
      exact ⟨k + 1, Nat.succ_le_succ hk, heq⟩

theorem length_reachable (preds : Preds) : preds.reachable.length = preds.length :=
  Preds.length_reach preds preds.length

theorem getElem?_initial (preds : Preds) (b : Nat) : (initial preds)[b]? =
    if b < preds.length then some (if preds.reachable.getD b false then
      some (if b = 0 then (List.range preds.length).map (· == 0) else List.replicate preds.length true)
      else none) else none := by
  have hlen := length_reachable preds
  simp only [initial, getElem?_zipWith, getD_eq_getElem?_getD]
  by_cases hb : b < preds.length
  · simp [hb, getElem?_eq_getElem (hlen.symm ▸ hb)]
  · simp [hb]

theorem closing_initial (hn : 0 < preds.length) : (initial preds).Closing preds := by
  have hset : ∀ (b : Nat) (s : BlockSet), (initial preds)[b]? = some (some s) ↔
      preds.Reached b ∧ s = if b = 0 then (List.range preds.length).map (· == 0)
        else List.replicate preds.length true := by
    intro b s
    rw [getElem?_initial]
    by_cases hb : preds.Reached b
    · rw [if_pos (hb.lt hn), if_pos ((Preds.mem_reachable hn).2 hb), Option.some.injEq,
        Option.some.injEq, eq_comm]
      exact (and_iff_right hb).symm
    · have hfalse : preds.reachable.getD b false = false := by
        rw [Bool.eq_false_iff]
        exact fun h => hb ((Preds.mem_reachable hn).1 h)
      simp only [hfalse, hb, false_and, iff_false]
      split <;> simp
  -- at the start everything dominates a block that can be reached, but the entry only itself
  have hmem : ∀ a b, (initial preds).dominates a b = true ↔
      preds.Reached b ∧ a < preds.length ∧ (b = 0 → a = 0) := by
    intro a b
    simp only [dominates_iff, hset]
    constructor
    · rintro ⟨s, ⟨hb, rfl⟩, ha⟩
      refine ⟨hb, ?_⟩
      by_cases hlt : a < preds.length
      · by_cases hb0 : b = 0
        · simpa [hb0, hlt, getD_eq_getElem?_getD] using ha
        · exact ⟨hlt, fun h => absurd h hb0⟩
      · by_cases hb0 : b = 0 <;> simp [hb0, hlt, getD_eq_getElem?_getD] at ha
    · rintro ⟨hb, hlt, h0⟩
      refine ⟨_, ⟨hb, rfl⟩, ?_⟩
      by_cases hb0 : b = 0
      · simp [hb0, h0 hb0, hn, getD_eq_getElem?_getD]
      · simp [hb0, hlt, getD_eq_getElem?_getD]
  refine ⟨⟨?_, fun b s hs => ?_, fun b => ?_⟩, fun a => ?_, fun a b hb hreached ha _ => ?_,
    fun a b hreached ha hdom => ?_⟩
  · simp [initial, length_reachable]
  · obtain ⟨-, rfl⟩ := (hset b s).1 hs
    split <;> simp
  · simp [hset]
  · rw [hmem]
    exact ⟨fun h => h.2.2 rfl, fun h => ⟨⟨_, .start⟩, h ▸ hn, fun _ => h⟩⟩
  · exact (hmem a b).2 ⟨hreached, ha, fun h => by omega⟩
  · refine (hmem a b).2 ⟨hreached, ha, fun hb => ?_⟩
    subst hb
    simpa using hdom _ .start

end Dominators

/-! ## Exactness -/

theorem settled_dominators (hn : 0 < preds.length) : (dominators preds).Settled preds := by
  refine Dominators.settled_settle (Dominators.closing_initial hn) (Nat.lt_succ_of_le ?_)
  calc ((Dominators.initial preds).total preds).card
      ≤ (Finset.range preds.length ×ˢ Finset.range preds.length).card := Finset.card_filter_le _ _
    _ = preds.length * preds.length := by rw [Finset.card_product, Finset.card_range]

theorem isSome_dominators (hn : 0 < preds.length) (b : Nat) :
    ((dominators preds).getD b none).isSome = true ↔ preds.Reached b := by
  rw [← (settled_dominators hn).closing.formed.reached b, getD_eq_getElem?_getD]
  cases (dominators preds)[b]? with
  | none => simp
  | some o => cases o <;> simp

/-- The dominators of a reachable block are the blocks on all paths to it. -/
theorem dominates_dominators (hn : 0 < preds.length) (hb : preds.Reached b) :
    (dominators preds).dominates a b = true ↔ preds.Dominates a b := by
  have hsettled := settled_dominators hn
  constructor
  · intro h l hl
    induction hl with
    | start => simp [(hsettled.closing.entry a).1 h]
    | @step p b l hpath hedge ih =>
      by_cases hne : a = b
      · exact hne ▸ mem_cons_self
      · exact mem_cons_of_mem _ (ih ⟨l, hpath⟩ (hsettled.edge h hne hedge ⟨l, hpath⟩))
  · intro h
    obtain ⟨l, hl⟩ := hb
    refine hsettled.closing.exact a b ⟨l, hl⟩ ?_ h
    have hall : ∀ {b l}, preds.Path b l → ∀ c ∈ l, c < preds.length := by
      intro b l hl
      induction hl with
      | start => simpa using hn
      | step _ hedge ih => exact forall_mem_cons.2 ⟨hedge.lt, ih⟩
    exact hall hl a (h l hl)

end NumericEngine.Ir
