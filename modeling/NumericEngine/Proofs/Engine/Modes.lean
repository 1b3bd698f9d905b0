import Mathlib.Logic.Relation
import NumericEngine.Proofs.Compile.Runs

/-!
# Modes settle

Threads share one table of modes. A request for a mode, from an invocation, a
call inside one or a pin, takes up to three steps with other threads in between:
it reads the table, decides, and installs its decision. The table lets the first
decision on a function stand and drops all later ones.

Main statement: however the requests of any number of threads interleave, the
mode of a function changes once at most, its code is there exactly when it runs
natively, and a request that succeeds is answered with the mode that stays.
-/

namespace NumericEngine

open Code (Native)

/-! ## The table -/

namespace ModeTable

variable {t u : ModeTable} {f : FuncId}

/-- The code of a function is there exactly when the function runs natively. -/
def Coherent (t : ModeTable) : Prop := ∀ f, (t.code? f).isSome ↔ t.mode? f = some .native

/-- What has been decided in one table stands in another; an open mode may have been decided. -/
structure Le (t u : ModeTable) : Prop where
  mode : ∀ f, u.mode? f = t.mode? f ∨
    t.mode? f = some .unresolved ∧ (u.mode? f = some .interpreted ∨ u.mode? f = some .native)
  code : ∀ f code, t.code? f = some code → u.code? f = some code

theorem Le.refl (t : ModeTable) : t.Le t := ⟨fun _ => .inl rfl, fun _ _ h => h⟩

theorem Le.settled (h : t.Le u) (hm : t.mode? f = some m) (hne : m ≠ .unresolved) : u.mode? f = some m := by
  rcases h.mode f with heq | ⟨hopen, -⟩
  · exact heq.trans hm
  · rw [hm] at hopen
    exact absurd (Option.some.inj hopen) hne

theorem Le.trans (h : t.Le u) (h' : u.Le v) : t.Le v := by
  refine ⟨fun f => ?_, fun f code hcode => h'.code f code (h.code f code hcode)⟩
  rcases h.mode f with heq | ⟨hopen, hmode⟩
  · rw [← heq]
    exact h'.mode f
  · right
    refine ⟨hopen, ?_⟩
    rcases hmode with hmode | hmode
    · exact .inl (h'.settled hmode (by decide))
    · exact .inr (h'.settled hmode (by decide))

theorem mode?_setIfInBounds (t : ModeTable) (f g : FuncId) (m : Mode) :
    (t.modes.setIfInBounds f.index.toNat m)[g.index.toNat]? =
      if g = f then (t.mode? f).map fun _ => m else t.mode? g := by
  have hiff : f.index.toNat = g.index.toNat ↔ g = f := by
    cases f
    cases g
    simp [UInt32.toNat_inj, eq_comm]
  rw [Array.getElem?_setIfInBounds]
  split
  · rename_i h
    rw [if_pos (hiff.1 h)]
    split
    · rename_i hlt
      rw [mode?, Array.getElem?_eq_getElem hlt, Option.map_some]
    · rename_i hge
      rw [mode?, Array.getElem?_eq_none (Nat.le_of_not_lt hge), Option.map_none]
  · rename_i h
    rw [if_neg fun hgf => h (hiff.2 hgf)]
    rfl

theorem install_open (h : t.mode? f = some .unresolved) (r : Resolution) :
    (t.install f r).1 = r.mode ∧
      (∀ g, (t.install f r).2.mode? g = if g = f then some r.mode else t.mode? g) ∧
      ∀ g, (t.install f r).2.code? g =
        match r with
        | .interpreted => t.code? g
        | .native code => if g = f then some code else t.code? g := by
  have hset : ∀ g, (t.modes.setIfInBounds f.index.toNat r.mode)[g.index.toNat]? =
      if g = f then some r.mode else t.mode? g := by
    intro g
    rw [mode?_setIfInBounds, h, Option.map_some]
  unfold install
  simp only [h]
  cases r with
  | interpreted => exact ⟨rfl, hset, fun _ => rfl⟩
  | native code =>
    refine ⟨rfl, hset, fun g => ?_⟩
    simp only [code?, List.lookup_cons]
    by_cases hg : g = f
    · simp [hg]
    · simp [hg, beq_false_of_ne hg]

theorem install_settled (h : t.mode? f = some m) (hne : m ≠ .unresolved)
    (r : Resolution) : t.install f r = (m, t) := by
  unfold install
  cases m with
  | unresolved => exact absurd rfl hne
  | interpreted | native => simp only [h]

theorem mode_ne_unresolved (r : Resolution) : r.mode ≠ .unresolved := by
  cases r <;> exact nofun

/-- Entering a decision keeps what was decided before, and what it answers stands. -/
theorem le_install (ht : t.Coherent) (hf : t.mode? f = some m) (r : Resolution) :
    t.Le (t.install f r).2 ∧ (t.install f r).2.Coherent ∧
      (t.install f r).2.mode? f = some (t.install f r).1 ∧ (t.install f r).1 ≠ .unresolved := by
  by_cases hne : m = .unresolved
  · subst hne
    obtain ⟨hanswer, hmode, hcode⟩ := install_open hf r
    have hnone : t.code? f = none := by
      have := mt (ht f).1 (by rw [hf]; decide)
      simpa using this
    refine ⟨⟨fun g => ?_, fun g code hg => ?_⟩, fun g => ?_, by rw [hmode f, if_pos rfl, hanswer],
      hanswer ▸ mode_ne_unresolved r⟩
    · rw [hmode g]
      by_cases hg : g = f
      · subst hg
        rw [if_pos rfl]
        exact .inr ⟨hf, by cases r <;> simp [Resolution.mode]⟩
      · rw [if_neg hg]
        exact .inl rfl
    · have hgf : g ≠ f := fun h => by simp [h, hnone] at hg
      rw [hcode g]
      cases r with
      | interpreted => exact hg
      | native => simpa [hgf] using hg
    · rw [hmode g, hcode g]
      by_cases hg : g = f
      · subst hg
        cases r <;> simp [hnone, Resolution.mode]
      · cases r <;> simp [hg, ht g]
  · rw [install_settled hf hne]
    exact ⟨.refl t, ht, hf, hne⟩

theorem coherent_new (n : Nat) : (new n).Coherent := by
  intro f
  have hmode : (new n).mode? f ≠ some .native := by
    intro h
    have hmem := Array.mem_of_getElem? (show (Array.replicate n Mode.unresolved)[_]? = _ from h)
    cases Array.eq_of_mem_replicate hmem
  simp [new, code?] at hmode ⊢
  exact hmode

end ModeTable

/-! ## Requests -/

/-- What a thread may want of the table. -/
inductive Request where
  /-- The mode of a function that is about to run. -/
  | resolve (f : FuncId)
  | pin (f : FuncId) (mode : Mode)

def Request.function : Request → FuncId
  | resolve f | pin f _ => f

/-- How far a request has come. -/
inductive Progress where
  | started
  /-- The mode was found open. -/
  | undecided
  | decided (r : Resolution)
  | answered (answer : Except Error Mode)

namespace Engine

variable {e : Engine}

/-- The decision that a request leads to. -/
def verdict (e : Engine) : Request → Except Error Resolution
  | .resolve f => (e.decide f).mapError .runtime
  | .pin f mode => e.pinned f mode

/-- One step of a request; nothing else touches the table meanwhile. -/
def proceed (e : Engine) (q : Request) (t : ModeTable) : Progress → Progress × ModeTable
  | .started =>
    match t.resolved q.function with
    | .error fault => (.answered (.error (.runtime fault)), t)
    | .ok (some mode) => (.answered (.ok mode), t)
    | .ok none => (.undecided, t)
  | .undecided =>
    match e.verdict q with
    | .error err => (.answered (.error err), t)
    | .ok r => (.decided r, t)
  | .decided r => let (mode, t) := t.install q.function r; (.answered (.ok mode), t)
  | .answered answer => (.answered answer, t)

/-- Three steps of a request, with nothing in between. -/
def proceedAlone (e : Engine) (q : Request) (t : ModeTable) : Progress × ModeTable :=
  let (p, t) := e.proceed q t .started
  let (p, t) := e.proceed q t p
  e.proceed q t p

/-- Alone, a request for the mode of a function resolves it. -/
theorem proceedAlone_resolve (f : FuncId) (t : ModeTable) :
    e.proceedAlone (.resolve f) t =
      match e.resolve f t with
      | .ok (mode, u) => (.answered (.ok mode), u)
      | .error fault => (.answered (.error (.runtime fault)), t) := by
  unfold proceedAlone resolve
  simp only [proceed, Request.function]
  cases hread : t.resolved f with
  | error fault => rfl
  | ok found =>
    cases found with
    | some mode => rfl
    | none =>
      simp only [verdict, Except.ok_bind]
      cases hdecide : e.decide f <;> rfl

theorem proceedAlone_pin (f : FuncId) (mode : Mode) (t : ModeTable) :
    e.proceedAlone (.pin f mode) t =
      match e.pin f mode t with
      | .ok (held, u) => (.answered (.ok held), u)
      | .error err => (.answered (.error err), t) := by
  unfold proceedAlone pin
  simp only [proceed, Request.function]
  cases hread : t.resolved f with
  | error fault => rfl
  | ok found =>
    cases found with
    | some held => rfl
    | none =>
      simp only [verdict]
      cases hpinned : e.pinned f mode <;> rfl

end Engine

/-! ## Threads -/

/-- The table, and the latest request of every thread that has made one. -/
structure Threads where
  table : ModeTable
  calls : Nat → Option (Request × Progress) := fun _ => none

namespace Threads

variable {e : Engine} {s s' : Threads}

/-- A thread makes a request, or takes the next step of one. -/
inductive Step (e : Engine) (s : Threads) : Threads → Prop where
  | request (i : Nat) (q : Request) (h : ∀ q' p, s.calls i = some (q', p) → ∃ a, p = .answered a) :
    Step e s { s with calls := Function.update s.calls i (some (q, .started)) }
  | proceed (i : Nat) (q : Request) (p : Progress) (h : s.calls i = some (q, p)) :
    Step e s
      { table := (e.proceed q s.table p).2
        calls := Function.update s.calls i (some (q, (e.proceed q s.table p).1)) }

/-- Any number of steps of any threads. -/
def Steps (e : Engine) : Threads → Threads → Prop := Relation.ReflTransGen (Step e)

/-- What the table says about a request that has come so far. -/
def Witnessed (t : ModeTable) (q : Request) : Progress → Prop
  | .started => True
  | .undecided | .decided _ => ∃ mode, t.mode? q.function = some mode
  | .answered (.error _) => True
  | .answered (.ok mode) => t.mode? q.function = some mode ∧ mode ≠ .unresolved

/-- The invariant of all interleavings. -/
structure Sound (s : Threads) : Prop where
  coherent : s.table.Coherent
  calls : ∀ i q p, s.calls i = some (q, p) → Witnessed s.table q p

theorem Witnessed.mono {t : ModeTable} (hle : t.Le u) (h : Witnessed t q p) : Witnessed u q p := by
  have hsome : (∃ mode, t.mode? q.function = some mode) → ∃ mode, u.mode? q.function = some mode := by
    rintro ⟨mode, hmode⟩
    rcases hle.mode q.function with heq | ⟨-, heq | heq⟩
    · exact ⟨mode, heq.trans hmode⟩
    · exact ⟨_, heq⟩
    · exact ⟨_, heq⟩
  cases p with
  | started => trivial
  | undecided | decided => exact hsome h
  | answered answer =>
    cases answer with
    | error => trivial
    | ok mode => exact ⟨hle.settled h.1 h.2, h.2⟩

theorem proceed_sound {t : ModeTable} (ht : t.Coherent) (hp : Witnessed t q p) :
    t.Le (e.proceed q t p).2 ∧ (e.proceed q t p).2.Coherent ∧
      Witnessed (e.proceed q t p).2 q (e.proceed q t p).1 := by
  cases p with
  | started =>
    simp only [Engine.proceed, ModeTable.resolved]
    cases hmode : t.mode? q.function with
    | none => exact ⟨.refl t, ht, trivial⟩
    | some mode =>
      cases mode with
      | unresolved => exact ⟨.refl t, ht, _, hmode⟩
      | interpreted | native => exact ⟨.refl t, ht, hmode, by decide⟩
  | undecided =>
    simp only [Engine.proceed]
    cases e.verdict q with
    | error err => exact ⟨.refl t, ht, trivial⟩
    | ok r => exact ⟨.refl t, ht, hp⟩
  | decided r =>
    obtain ⟨mode, hmode⟩ := hp
    exact ModeTable.le_install ht hmode r
  | answered answer => exact ⟨.refl t, ht, hp⟩

theorem Step.sound (h : Step e s s') (hs : s.Sound) : s'.Sound ∧ s.table.Le s'.table := by
  cases h with
  | request i q h =>
    refine ⟨⟨hs.coherent, fun j q' p hj => ?_⟩, .refl _⟩
    rcases eq_or_ne j i with rfl | hji
    · simp only [Function.update_self, Option.some.injEq, Prod.mk.injEq] at hj
      obtain ⟨rfl, rfl⟩ := hj
      trivial
    · simp only [Function.update_of_ne hji] at hj
      exact hs.calls j q' p hj
  | proceed i q p h =>
    obtain ⟨hle, hcoherent, hp⟩ := proceed_sound (e := e) hs.coherent (hs.calls i q p h)
    refine ⟨⟨hcoherent, fun j q' p' hj => ?_⟩, hle⟩
    rcases eq_or_ne j i with rfl | hji
    · simp only [Function.update_self, Option.some.injEq, Prod.mk.injEq] at hj
      obtain ⟨rfl, rfl⟩ := hj
      exact hp
    · simp only [Function.update_of_ne hji] at hj
      exact (hs.calls j q' p' hj).mono hle

theorem Steps.sound (h : Steps e s s') (hs : s.Sound) : s'.Sound ∧ s.table.Le s'.table := by
  induction h with
  | refl => exact ⟨hs, .refl _⟩
  | tail _ hstep ih =>
    obtain ⟨hsound, hle⟩ := hstep.sound ih.1
    exact ⟨hsound, ih.2.trans hle⟩

theorem sound_new (e : Engine) : Sound { table := e.newTable } where
  coherent := ModeTable.coherent_new _
  calls _ _ _ h := nomatch h

/-- Whatever threads do with the table of an engine: code is there exactly for the functions that
run natively; a mode changes once at most, and code is never replaced; and a request that succeeded
was answered with the mode that its function keeps. -/
theorem modes_settle (h : Steps e { table := e.newTable } s) :
    s.table.Coherent ∧
    (∀ s', Steps e s s' → ∀ f,
      (s'.table.mode? f = s.table.mode? f ∨ s.table.mode? f = some .unresolved ∧
        (s'.table.mode? f = some .interpreted ∨ s'.table.mode? f = some .native)) ∧
      ∀ code, s.table.code? f = some code → s'.table.code? f = some code) ∧
    ∀ i q mode, s.calls i = some (q, .answered (.ok mode)) → mode ≠ .unresolved ∧
      ∀ s', Steps e s s' → s'.table.mode? q.function = some mode := by
  obtain ⟨hs, -⟩ := h.sound (sound_new e)
  refine ⟨hs.coherent, fun s' hsteps f => ?_, fun i q mode hcall => ?_⟩
  · obtain ⟨-, hle⟩ := hsteps.sound hs
    exact ⟨hle.mode f, hle.code f⟩
  · obtain ⟨hmode, hne⟩ : Witnessed s.table q (.answered (.ok mode)) := hs.calls i q _ hcall
    refine ⟨hne, fun s' hsteps => ?_⟩
    exact (hsteps.sound hs).2.settled hmode hne

theorem exists_proceed (h : s.calls i = some (q, p)) :
    ∃ s', Step e s s' ∧ s'.table = (e.proceed q s.table p).2 ∧
      s'.calls i = some (q, (e.proceed q s.table p).1) ∧ ∀ j ≠ i, s'.calls j = s.calls j :=
  ⟨_, .proceed i q p h, rfl, Function.update_self .., fun _ hj => Function.update_of_ne hj ..⟩

theorem exists_request (q : Request) (h : s.calls i = none) :
    ∃ s', Step e s s' ∧ s'.table = s.table ∧ s'.calls i = some (q, .started) ∧
      ∀ j ≠ i, s'.calls j = s.calls j :=
  ⟨_, .request i q (by simp [h]), rfl, Function.update_self .., fun _ hj => Function.update_of_ne hj ..⟩

/-- A pin and an invocation race for a function: both find its mode open, the invocation decides for
machine code, and the pin comes first. -/
theorem pin_wins (hopen : e.newTable.mode? f = some .unresolved)
    (hcode : e.decide f = .ok (.native code)) :
    ∃ s, Steps e { table := e.newTable } s ∧
      s.calls 1 = some (.resolve f, .answered (.ok .interpreted)) := by
  have hread : e.newTable.resolved f = .ok none := by simp [ModeTable.resolved, hopen]
  have hpinned : (e.newTable.install f .interpreted).2.mode? f = some .interpreted := by
    rw [(ModeTable.install_open hopen _).2.1, if_pos rfl]
    rfl
  have hlate := ModeTable.install_settled hpinned (by decide) (.native code)
  obtain ⟨s₁, hstep₁, ht₁, hpin₁, hrest₁⟩ := exists_request (e := e) (s := { table := e.newTable })
    (i := 0) (.pin f .interpreted) rfl
  obtain ⟨s₂, hstep₂, ht₂, hres₂, hrest₂⟩ := exists_request (e := e) (i := 1) (.resolve f)
    (hrest₁ 1 (by decide))
  obtain ⟨s₃, hstep₃, ht₃, hpin₃, hrest₃⟩ := exists_proceed (e := e) ((hrest₂ 0 (by decide)).trans hpin₁)
  obtain ⟨s₄, hstep₄, ht₄, hres₄, hrest₄⟩ := exists_proceed (e := e) ((hrest₃ 1 (by decide)).trans hres₂)
  obtain ⟨s₅, hstep₅, ht₅, hres₅, hrest₅⟩ := exists_proceed (e := e) hres₄
  obtain ⟨s₆, hstep₆, ht₆, hpin₆, hrest₆⟩ := exists_proceed (e := e)
    ((hrest₅ 0 (by decide)).trans ((hrest₄ 0 (by decide)).trans hpin₃))
  obtain ⟨s₇, hstep₇, ht₇, hpin₇, hrest₇⟩ := exists_proceed (e := e) hpin₆
  obtain ⟨s₈, hstep₈, ht₈, hres₈, -⟩ := exists_proceed (e := e)
    ((hrest₇ 1 (by decide)).trans ((hrest₆ 1 (by decide)).trans hres₅))
  refine ⟨s₈, (((((((Relation.ReflTransGen.single hstep₁).tail hstep₂).tail hstep₃).tail hstep₄).tail
    hstep₅).tail hstep₆).tail hstep₇).tail hstep₈, ?_⟩
  simp [hres₈, ht₇, ht₆, ht₅, ht₄, ht₃, ht₂, ht₁, Engine.proceed, Request.function, hread, Engine.verdict,
    Engine.pinned, hcode, hlate, Except.mapError]

open CompileOptions in
theorem modes_settle_race : ∃ (u : CompiledUnit) (s : Threads),
    ({} : CompileOptions).compile offset = .ok u ∧
      (∃ code, Engine.decide ⟨u, {}⟩ ⟨0⟩ = .ok (.native code)) ∧
      Steps ⟨u, {}⟩ { table := Engine.newTable ⟨u, {}⟩ } s ∧
      s.calls 1 = some (.resolve ⟨0⟩, .answered (.ok .interpreted)) ∧
      ∀ s', Steps ⟨u, {}⟩ s s' → s'.table.mode? ⟨0⟩ = some .interpreted := by
  have hnative : (({} : CompileOptions).compile offset).toOption.map (fun u =>
      Decidable.decide ((Engine.newTable ⟨u, {}⟩).mode? ⟨0⟩ = some .unresolved ∧
        (Engine.decide ⟨u, {}⟩ ⟨0⟩).toOption.map Resolution.mode = some .native)) = some true := by
    decide +kernel
  obtain ⟨u, hu, hboth⟩ := Option.map_eq_some_iff.1 hnative
  have hu := Except.toOption_eq_some hu
  rw [decide_eq_true_eq] at hboth
  obtain ⟨hopen, hmode⟩ := hboth
  obtain ⟨code, hcode⟩ : ∃ code, Engine.decide ⟨u, {}⟩ ⟨0⟩ = .ok (.native code) := by
    obtain ⟨r, hr, hmode⟩ := Option.map_eq_some_iff.1 hmode
    cases r with
    | interpreted => cases hmode
    | native code => exact ⟨code, Except.toOption_eq_some hr⟩
  obtain ⟨s, hsteps, hcall⟩ := pin_wins hopen hcode
  exact ⟨u, s, hu, ⟨code, hcode⟩, hsteps, hcall, ((modes_settle hsteps).2.2 1 _ _ hcall).2⟩

end Threads

end NumericEngine
