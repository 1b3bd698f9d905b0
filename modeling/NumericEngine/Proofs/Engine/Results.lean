import NumericEngine.Proofs.Compile.Encoding
import NumericEngine.Proofs.Engine.Balance

/-!
# Results have the declared types

A function that runs natively hands over the record that its code left, read as
the type that it declares, so its result has that type whatever it was called
with. An interpreted function trusts what it calls: its result has the declared
type as long as the functions that the host handed to it are what they are said
to be.
-/

namespace NumericEngine

open NumericEngine.Except (bind_eq_ok toOption_eq_some)

/-! ## Values read from memory -/

namespace Value

variable {μ : Type} [Memory μ] {mem : μ}

theorem decodeContainer_valid {t : Ty} {bs : List UInt8} (ht : t.Formed) (hsize : t.Addressable)
    (helem : t.element? = some elem) (hlen : bs.length = t.layout.size) (h : decodeContainer mem t bs = .ok v) :
    v.ty = t ∧ v.Valid := by
  obtain ⟨e, he⟩ := Option.isSome_iff_exists.1 (ht.element helem)
  obtain ⟨ds, hds, -⟩ := Ty.isContainer_of_element helem
  cases hshape : t.fixedShape? with
  | some shape =>
    obtain ⟨hstorage, hroom⟩ := Ty.inline_of_fixed helem hshape hsize
    simp only [decodeContainer, hstorage, hshape] at h
    cases h
    have hextent : (Layout.elemExtent elem).1 = e.size := by rw [Layout.elemExtent, he]
    have hdata : (bs.take ((Layout.elemExtent elem).1 * shape.volume)).toArray.size =
        Word.mul shape.count e.size := by
      rw [List.size_toArray, List.length_take, hlen, Nat.min_eq_left hroom, hextent,
        (Ty.bytes_of_fixed helem he hshape hsize).1]
    have hplain : (tensor t shape _).Plain (fun _ => none) t :=
      plain_tensor helem he (Ty.admits_fixedShape hshape) hdata
    exact ⟨rfl, hplain.valid⟩
  | none =>
    obtain ⟨hstorage, -⟩ := Ty.descriptor_of_dynamic helem hds hshape
    simp only [decodeContainer, hstorage, decodeDescriptor, Ty.elemKind?, helem, Option.bind_some, he] at h
    obtain ⟨-, -, h⟩ := bind_eq_ok.1 h
    obtain ⟨data, -, h⟩ := bind_eq_ok.1 h
    cases hcheck : (tensor t (words ds.length (bs.drop 8)) data.toArray).check with
    | error d => simp [checked, hcheck, Except.mapError] at h
    | ok u =>
      simp only [checked, hcheck, Except.mapError] at h
      cases h
      exact ⟨rfl, hcheck⟩

mutual
theorem decode_valid (t : Ty) (ht : t.Formed) (hsize : t.Addressable) {bs : List UInt8}
    (hlen : bs.length = t.layout.size) (h : decode mem t bs = .ok v) : v.ty = t ∧ v.Valid := by
  cases t with
  | prim p w =>
    obtain ⟨k, hk⟩ := Option.isSome_iff_exists.1 (show (Ty.prim p w).kind?.isSome = true from ht)
    rw [Ty.eq_ofKind hk] at h hlen ⊢
    rw [decode_ofKind mem k (by rw [hlen, Ty.layout_ofKind]; rfl)] at h
    cases h
    exact ⟨rfl, valid_ofScalar k _⟩
  | complex e =>
    obtain ⟨k, hk⟩ := Option.isSome_iff_exists.1 (Ty.Formed.complexKind ht)
    obtain ⟨heq, hfloat⟩ := Ty.eq_complexOf hk
    rw [heq] at h hlen ⊢
    rw [decode_complexOf mem hfloat (by rw [hlen, Ty.layout_complexOf]; rfl)] at h
    cases h
    have hplain : (ofComplex k (k.read bs) (k.read (bs.drop k.size))).Plain (fun _ => none) (.complexOf k) :=
      plain_ofComplex hfloat (k.canonical_of_canonical _) (k.canonical_of_canonical _)
    exact ⟨rfl, hplain.valid⟩
  | vector | tensor =>
    rw [decode_container mem rfl hlen] at h
    exact decodeContainer_valid ht hsize rfl hlen h
  | struct decl =>
    rw [decode, record_of_length hlen, Except.ok_bind] at h
    cases hvs : decodeFields mem decl (Ty.struct decl).layout.offsets bs with
    | error f =>
      rw [hvs] at h
      cases h
    | ok vs =>
      rw [hvs] at h
      cases h
      exact ⟨rfl, valid_of_fields
        (decodeFields_valid decl ht (Ty.placed_struct hsize) (Nat.le_of_eq hlen.symm) hvs)⟩
  | function =>
    rw [decode, record_of_length hlen, Except.ok_bind, decodeFunction] at h
    split at h
    · cases h
      exact ⟨rfl, rfl⟩
    · cases h
  | reference =>
    rw [decode, record_of_length hlen] at h
    cases h
theorem decodeFields_valid (decl : List (String × Ty)) (ht : Ty.FormedFields decl)
    {bs : List UInt8} (hp : Placed decl offsets first last)
    (hlast : last ≤ bs.length) (h : decodeFields mem decl offsets bs = .ok vs) :
    List.Forall₂ (fun v d => v.ty = d.2 ∧ v.Valid) vs decl := by
  cases hp with
  | nil =>
    rw [decodeFields] at h
    · cases h
      exact .nil
    · simp
  | @cons _ t decl _ _ _ _ hsize hfirst hrest =>
    rw [decodeFields] at h
    obtain ⟨v, hv, h⟩ := bind_eq_ok.1 h
    obtain ⟨vs, hvs, h⟩ := bind_eq_ok.1 h
    cases h
    have hend := hrest.le
    refine .cons (decode_valid t ht.1 hsize ?_ hv) (decodeFields_valid decl ht.2 hrest hlast hvs)
    rw [List.length_take, List.length_drop]
    omega
end

end Value

/-! ## Results of machine code -/

namespace MachineMemory

variable {m : MachineMemory}

theorem length_load (h : m.load addr n = .ok bs) : bs.length = n := by
  have hregion : ∀ {r : Region}, r.load addr n = .ok bs → bs.length = n := by
    intro r h
    unfold Region.load at h
    split at h
    · rename_i start hstart
      cases h
      exact Bytes.length_window (Region.offset?_eq_some.1 hstart).2
    · cases h
  unfold load at h
  split at h
  · exact hregion h
  · exact hregion h

end MachineMemory

namespace Machine

variable {σ : Type} {m : Ir.Module} {bridge : Bridge σ}

theorem invoke_valid {s : Machine σ} (hret : s.code.ret.Formed)
    (h : invoke m bridge limit args s = some (.ok v, s')) : v.ty = s.code.ret ∧ v.Valid := by
  obtain ⟨_, _, hget, h⟩ := Run.bind_eq_ok h
  cases hget
  obtain ⟨_, s₁, -, h⟩ := Run.bind_eq_ok h
  obtain ⟨_, s₂, -, h⟩ := Run.bind_eq_ok h
  obtain ⟨ret, s₃, -, h⟩ := Run.bind_eq_ok h
  obtain ⟨_, s₄, -, h⟩ := Run.bind_eq_ok h
  obtain ⟨_, s₅, -, h⟩ := Run.bind_eq_ok h
  obtain ⟨_, s₆, -, h⟩ := Run.bind_eq_ok h
  obtain ⟨_, s₇, -, h⟩ := Run.bind_eq_ok h
  obtain ⟨_, s₈, hget, h⟩ := Run.bind_eq_ok h
  cases hget
  cases hload : Value.load s₇.memory s.code.ret ret with
  | error f =>
    rw [Run.outcome_apply, hload] at h
    cases h
  | ok w =>
    rw [Run.outcome_apply, hload] at h
    cases h
    obtain ⟨⟨⟩, hreserve, hload⟩ := bind_eq_ok.1 hload
    obtain ⟨bs, hbs, hdecode⟩ := bind_eq_ok.1 hload
    exact Value.decode_valid _ hret (Memory.le_of_reserve hreserve) (MachineMemory.length_load hbs) hdecode

end Machine

/-! ## Results of interpreted code -/

namespace Exec.Interpreter

variable {σ : Type} {bridge : Bridge σ} {Good : σ → Prop} {ret : Ty}

theorem run_plain (hm : m.WellFormed) (hb : bridge.Supplies m Good) {g : Ir.Function}
    (hsig : m.signature? f = some (.function ps ret)) (hg : m.function? f = some g)
    (hargs : List.Forall₂ (fun v p => v.Plain m.signature? p) args ps) {s : Session σ}
    (hs : Good s.host) (h : run m bridge limit g args s = some (.ok v, s')) : v.Plain m.signature? ret := by
  obtain ⟨g', hg', hwf, hps, hret, -, -⟩ := hm.signature hsig
  cases hg.symm.trans hg'
  obtain ⟨a, ha, -, hsound⟩ := Activation.new_sound hwf hps hret hargs
  rw [run_of_new ha] at h
  obtain ⟨⟨r, i⟩, hi, heq⟩ := Option.map_eq_some_iff.1 h
  cases heq
  have hstart : Returns m Good ret ⟨a, [], s⟩ := ⟨hs, ret, hsound, rfl⟩
  exact hstart.iterate hm hb hi

end Exec.Interpreter

/-! ## The host of a run -/

/-- A run that keeps its host good. -/
def Run.Upholds (H : σ → Prop) (x : Run (Session σ) α) : Prop :=
  ∀ s r s', H s.host → x s = some (r, s') → H s'.host

theorem Run.Upholds.bind {H : σ → Prop} {x : Run (Session σ) α} (hx : x.Upholds H)
    (hk : ∀ a, Run.Upholds H (k a)) : Run.Upholds H (x >>= k) := by
  intro s r s' hs h
  rcases Run.bind_eq_some h with ⟨e, hxs, rfl⟩ | ⟨a, t, hxs, hka⟩
  · exact hx s _ s' hs hxs
  · exact hk a t r s' (hx s _ t hs hxs) hka

theorem Run.Upholds.of_total {H : σ → Prop} {x : Run (Session σ) α} {f : Session σ → Except Fault α}
    (hx : ∀ s, x s = some (f s, s)) : x.Upholds H := by
  intro s r s' hs h
  rw [hx] at h
  cases h
  exact hs

theorem Run.Upholds.need {H : σ → Prop} (x : Option α) (f : Fault) : Run.Upholds H (Run.need x f) := by
  cases x <;> exact .of_total fun _ => rfl

/-- All that goes over the bridge keeps the host good. -/
structure Bridge.Upholds (H : σ → Prop) (b : Bridge σ) : Prop where
  runsInterpreted : ∀ f, Run.Upholds H (b.runsInterpreted f)
  native? : ∀ f, Run.Upholds H (b.native? f)
  call : ∀ f args, Run.Upholds H (b.call f args)

theorem Session.host_leaveAll (n : Nat) (s : Session σ) : (s.leaveAll n).host = s.host := by
  rw [chain_leaveAll]

namespace Exec.Interpreter

variable {H : σ → Prop} {bridge : Bridge σ} (hb : bridge.Upholds H)

include hb

theorem Called.upholds (h : Called m bridge dst target args i r j) (hi : H i.session.host) :
    H j.session.host := by
  have hmode (r s) := hb.runsInterpreted target i.session r s hi
  cases h with
  | aborted => exact hi
  | undecided h | unknown h _ | tooDeep h _ | unbound h _ _ _ | started h _ _ _ =>
    have hs := hmode _ _ h
    exact hs
  | failed h hcall | unset h hcall _ | answered h hcall _ => exact hb.call _ _ _ _ _ (hmode _ _ h) hcall

theorem step_upholds (hi : H i.session.host) (h : step m bridge i = some (r, j)) : H j.session.host := by
  cases step_cases h with
  | failed | next | ended | unset | returned => exact hi
  | refused _ hcall | called _ hcall => exact hcall.upholds hb hi

theorem run_upholds (limit : Nat) (g : Ir.Function) (args : List Value) :
    Run.Upholds H (run m bridge limit g args) := by
  intro s r s' hs h
  rcases run_cases h with ⟨e, -, -, rfl⟩ | ⟨a, i, -, hi, rfl⟩
  · exact hs
  · obtain ⟨j, hj, hlast⟩ := Run.iterate_last (I := fun i : Interpreter σ => H i.session.host)
      (fun _ _ hi => step_upholds hb hi) hs hi
    rw [Session.host_leaveAll]
    exact step_upholds hb hj hlast

end Exec.Interpreter

namespace Machine

variable {H : σ → Prop} {bridge : Bridge σ} {s s' : Machine σ} (hb : bridge.Upholds H)

include hb

theorem Reaches.upholds (h : Reaches bridge i s s') (hs : H s.session.host) : H s'.session.host := by
  induction h with
  | keeps h => exact h.session ▸ hs
  | native? h => exact hb.native? _ _ _ _ hs h
  | call h => exact hb.call _ _ _ _ _ hs h
  | trans _ _ ih ih' => exact ih' (ih hs)

theorem Fails.upholds (h : Fails bridge i s f s') (hs : H s.session.host) : H s'.session.host := by
  cases h with
  | here h _ => exact h.upholds hb hs
  | native? h hf => exact hb.native? _ _ _ _ (h.upholds hb hs) hf
  | call h hf => exact hb.call _ _ _ _ _ (h.upholds hb hs) hf

theorem step_upholds (hs : H s.session.host) (hstep : step m bridge s = some (r, s')) : H s'.session.host := by
  cases step_cases hstep with
  | lost => exact hs
  | carried _ hx =>
    cases hx with
    | fails h => exact h.upholds hb hs
    | on _ h | jumps _ h _ | overflows _ h _ _ _ | enters _ _ h _ _ _ | ends _ h _ | returns _ h _ =>
      have ht := h.upholds hb hs
      exact ht

theorem run_upholds (hs : H s.session.host) (h : run m bridge limit s = some (r, s')) : H s'.session.host := by
  have hrun : Run.Ensures (fun s => H s.session.host) (fun _ _ => False) (run m bridge limit) := by
    refine .bind (.of_total (fun _ => rfl) fun _ h => h) fun s => .bind ?_ fun _ => ?_
    · exact .bind (.of_total (fun _ => rfl) fun _ h => h) fun _ => .of_total (fun _ => rfl) fun _ h => h
    · exact fun _ _ _ hs h => Run.ensures_iterate (I := fun _ => True) (fun _ _ _ _ => trivial)
        (fun _ _ t _ hs h => .of_state (s := t) (step_upholds hb hs h) _) trivial hs h
  exact (hrun s r s' hs h).state fun _ => id

theorem invoke_upholds (hs : H s.session.host) (h : invoke m bridge limit args s = some (r, s')) :
    H s'.session.host := by
  cases invoke_cases h with
  | failed hfails => exact hfails.upholds hb hs
  | stopped hreached hrun hsession | ran hreached hrun hsession _ =>
    rw [hsession, Session.host_leaveAll]
    exact run_upholds hb (hreached.upholds hb hs) hrun

end Machine

/-! ## Values without functions -/

mutual
/-- Whether values of a type hold functions. -/
def Ty.holdsFunction : Ty → Bool
  | .function .. => true
  | .struct fs => fieldsHoldFunction fs
  | _ => false
def Ty.fieldsHoldFunction : List (String × Ty) → Bool
  | [] => false
  | (_, t) :: fs => t.holdsFunction || fieldsHoldFunction fs
end

mutual
theorem Value.resolved_of_valid : (v : Value) → v.Valid → v.ty.holdsFunction = false →
    v.Resolved sig
  | .struct t vs, hv, ht => by
    obtain ⟨decl, rfl, hvs⟩ := valid_struct hv
    rw [ty, Ty.holdsFunction] at ht
    exact resolvedAll_of_valid vs hvs ht
  | .function t id, hv, ht => by
    cases t with
    | function => simp [ty, Ty.holdsFunction] at ht
    | _ => cases hv
  | .scalar .., _, _ | .complex .., _, _ | .tensor .., _, _ | .ref .., _, _ => trivial
theorem Value.resolvedAll_of_valid : (vs : List Value) → {decl : List (String × Ty)} →
    List.Forall₂ (fun v d => v.ty = d.2 ∧ v.Valid) vs decl → Ty.fieldsHoldFunction decl = false →
    ResolvedAll sig vs
  | [], _, _, _ => trivial
  | v :: vs, _, .cons ⟨hty, hv⟩ hvs, h => by
    rw [Ty.fieldsHoldFunction, Bool.or_eq_false_iff] at h
    exact ⟨resolved_of_valid v hv (hty ▸ h.1), resolvedAll_of_valid vs hvs h.2⟩
end

/-! ## Engines -/

namespace Engine

variable {e : Engine} {t u : ModeTable} {f : FuncId} {s s' : Session ModeTable} {code : Code.Native}
  {args : List Value}

/-- Tables that resolving functions and pinning them lead to. -/
inductive Reached (e : Engine) : ModeTable → Prop where
  | new : Reached e e.newTable
  | resolve {t u : ModeTable} {f : FuncId} {mode : Mode} (ht : Reached e t)
    (h : e.resolve f t = .ok (mode, u)) : Reached e u
  | pin {t u : ModeTable} {f : FuncId} {mode mode' : Mode} (ht : Reached e t)
    (h : e.pin f mode t = .ok (mode', u)) :
    Reached e u

/-- The code in a table is that of its function. -/
def Holds (e : Engine) (t : ModeTable) : Prop :=
  ∀ f code, t.code? f = some code → e.unit.native e.options.target f = .ok code

theorem Holds.install (ht : e.Holds t)
    (hr : ∀ code, r = .native code → e.unit.native e.options.target f = .ok code) :
    e.Holds (t.install f r).2 := by
  unfold ModeTable.install
  split
  · cases r with
    | interpreted => exact ht
    | native code =>
      intro g code' h
      simp only [ModeTable.code?] at h
      by_cases hg : g = f
      · subst hg
        rw [List.lookup_cons_self] at h
        cases h
        exact hr code rfl
      · rw [lookup_cons_of_ne hg] at h
        exact ht g code' h
  · exact ht
  · exact ht

theorem native_of_decide (h : e.decide f = .ok (.native code)) :
    e.unit.native e.options.target f = .ok code := by
  unfold decide at h
  split at h
  · cases h
  · split at h
    · cases h
      assumption
    · split at h <;> cases h

theorem native_of_pinned (h : e.pinned f mode = .ok (.native code)) :
    e.unit.native e.options.target f = .ok code := by
  unfold pinned at h
  split at h
  · cases h
  · cases h
  · cases hn : e.unit.native e.options.target f with
    | error err =>
      rw [hn] at h
      cases h
    | ok n =>
      rw [hn] at h
      cases h
      rfl

theorem Holds.resolve (ht : e.Holds t) (h : e.resolve f t = .ok (mode, u)) : e.Holds u := by
  obtain ⟨known, -, h⟩ := bind_eq_ok.1 h
  cases known with
  | some mode =>
    cases h
    exact ht
  | none =>
    obtain ⟨r, hr, h⟩ := bind_eq_ok.1 h
    rw [show u = (t.install f r).2 from (congrArg Prod.snd (Except.ok.inj h)).symm]
    exact ht.install fun code heq => native_of_decide (heq ▸ hr)

theorem Reached.holds (ht : e.Reached t) : e.Holds t := by
  induction ht with
  | new => exact fun f code h => nomatch h
  | resolve _ h ih => exact ih.resolve h
  | @pin t u f mode mode' ht h ih =>
    unfold Engine.pin at h
    split at h
    · cases h
    · cases h
      exact ih
    · obtain ⟨r, hr, h⟩ := bind_eq_ok.1 h
      rw [show u = (t.install f r).2 from (congrArg Prod.snd (Except.ok.inj h)).symm]
      exact ih.install fun code heq => native_of_pinned (heq ▸ hr)

/-- Tables that an invocation may leave behind. -/
def Leads (e : Engine) : ModeTable → ModeTable → Prop :=
  Relation.ReflTransGen fun t u => ∃ f mode, e.resolve f t = .ok (mode, u)

theorem Leads.reached (h : e.Leads t u) (ht : e.Reached t) : e.Reached u := by
  induction h with
  | refl => exact ht
  | tail _ hstep ih =>
    obtain ⟨f, mode, hresolve⟩ := hstep
    exact .resolve ih hresolve

theorem onExecutor_upholds {H : σ → Prop} {body : Run (Session σ) α} (hbody : body.Upholds H) :
    (onExecutor body).Upholds H := by
  refine .bind (.of_total fun _ => rfl) fun _ => .bind ?_ fun _ => ?_
  · intro s r s' hs h
    unfold Session.onChain at h
    split at h <;>
    · cases h
      exact hs
  · intro s r s' hs h
    dsimp only at h
    split at h
    · cases h
      exact hs
    · split at h
      · cases h
      · rename_i hx
        cases h
        have hhost := fun hs => hbody _ _ _ hs hx
        exact hhost hs

/-- A run keeps a table good if resolving functions leads from good tables to good ones. -/
theorem enter_upholds {H : ModeTable → Prop} (hH : ∀ f mode t u, H t → e.resolve f t = .ok (mode, u) → H u)
    (limit levels : Nat) (f : FuncId) (args : List Value) : Run.Upholds H (e.enter limit levels f args) := by
  have hmode (f : FuncId) : (e.modeOf f).Upholds H := by
    intro s r s' hs h
    unfold modeOf at h
    split at h
    · cases h
      exact hH _ _ _ _ hs ‹_›
    · cases h
      exact hs
  -- the calls that come back over the bridge have one level less
  induction levels generalizing f args with
  | zero => exact fun _ _ _ _ h => nomatch h
  | succ levels ih =>
    have hb : (e.bridge (e.enter limit levels)).Upholds H := by
      refine ⟨fun f => .bind (hmode f) fun _ => .of_total fun _ => rfl, fun f =>
        .bind (hmode f) fun mode => ?_, ih⟩
      cases mode with
      | native | interpreted | unresolved => exact .of_total fun _ => rfl
    refine onExecutor_upholds (.bind (hmode f) fun mode => ?_)
    cases mode with
    | native =>
      refine .bind (.of_total fun _ => rfl) fun _ => .bind (.need _ _) fun code s r s' hs h => ?_
      unfold runNative at h
      dsimp only at h
      split at h
      · cases h
      · rename_i hinvoke
        cases h
        exact Machine.invoke_upholds hb (s := { code, memory := _, session := s }) hs hinvoke
    | interpreted | unresolved =>
      exact .bind (.need _ _) fun g => Exec.Interpreter.run_upholds hb limit g args

/-- A run changes the table by resolving functions only. -/
theorem enter_leads {levels : Nat}
    (h : e.enter limit levels f args s = some (r, s')) : e.Leads s.host s'.host :=
  enter_upholds (H := e.Leads s.host) (fun f mode _ _ ht hu => ht.tail ⟨f, mode, hu⟩) limit levels
  f args s r s' .refl h

theorem modeOf_eq_ok (h : e.modeOf f s = some (.ok mode, s')) :
    ∃ u, e.resolve f s.host = .ok (mode, u) ∧ s' = { s with host := u } := by
  unfold modeOf at h
  split at h
  · cases h
    exact ⟨_, ‹_›, rfl⟩
  · cases h

theorem onExecutor_eq_ok {α : Type} {body : Run (Session σ) α} {s s' : Session σ} {a : α}
    (h : onExecutor body s = some (.ok a, s')) : ∃ c t, body { s with chain := c } = some (.ok a, t) := by
  obtain ⟨_, s₁, habort, h⟩ := Run.bind_eq_ok h
  obtain ⟨-, rfl⟩ := Prod.mk.inj (Option.some.inj habort)
  obtain ⟨_, s₂, henter, h⟩ := Run.bind_eq_ok h
  unfold Session.onChain at henter
  split at henter
  · cases henter
    dsimp only at h
    split at h
    · cases h
    · split at h
      · cases h
      · cases h
        exact ⟨_, _, ‹_›⟩
  · cases henter

theorem ret_of_native (h : e.unit.native e.options.target f = .ok code) :
    e.unit.retTy? f = some code.ret := by
  unfold CompiledUnit.native at h
  split at h
  · cases h
  · rename_i g hg
    split at h
    · rename_i n hn
      cases h
      obtain ⟨frame, -, hn⟩ := bind_eq_ok.1 hn
      obtain ⟨⟨program, sites⟩, -, hn⟩ := bind_eq_ok.1 hn
      dsimp only at hn
      split at hn
      · cases hn
      · split at hn
        · cases hn
        · cases hn
        · rename_i hret
          cases hn
          exact Option.bind_eq_some_iff.2 ⟨g, hg, hret⟩
    · cases h

variable {o : CompileOptions} {p : Source.Program}

theorem runWith_native (h : o.compile p = .ok e.unit) (hp : p.BindingsFit) (hsized : e.unit.module.Sized)
    {bridge : Bridge ModeTable} {limit : Nat}
    (hs : e.Reached s.host) (hmode : e.resolve f s.host = .ok (.native, u))
    (hrun : e.runWith bridge limit f args s = some (.ok v, s')) :
    ∃ code, u.code? f = some code ∧ e.unit.retTy? f = some code.ret ∧ v.ty = code.ret ∧ v.Valid := by
  obtain ⟨_, s₁, hmode', hrun⟩ := Run.bind_eq_ok hrun
  obtain ⟨_, hu, rfl⟩ := modeOf_eq_ok hmode'
  cases hmode.symm.trans hu
  obtain ⟨_, _, hget, hrun⟩ := Run.bind_eq_ok hrun
  cases hget
  obtain ⟨code, s₂, hneed, hrun⟩ := Run.bind_eq_ok hrun
  cases hcode : u.code? f with
  | none =>
    simp only [hcode, Run.need] at hneed
    cases hneed
  | some code' =>
    simp only [hcode, Run.need] at hneed
    cases hneed
    have hret := ret_of_native ((Reached.resolve hs hmode).holds f code hcode)
    have hformed : code.ret.Formed := by
      obtain ⟨g, -, hty⟩ := Option.bind_eq_some_iff.1 hret
      exact (CompileOptions.compile_tabled h hp hsized).1.types _ (Array.mem_of_getElem? hty)
    unfold runNative at hrun
    dsimp only at hrun
    split at hrun
    · cases hrun
    · rename_i r m hinvoke
      cases hrun
      obtain ⟨hty, hvalid⟩ := Machine.invoke_valid hformed hinvoke
      exact ⟨code, rfl, hret, hty, hvalid⟩

/-- An invocation with arguments that are what they should be gives what its function declares, when
functions that run natively return no functions. -/
theorem enter_plain (h : o.compile p = .ok e.unit) (hp : p.BindingsFit) (hsized : e.unit.module.Sized)
    (ht : e.Reached t) (hnative : ∀ u f code, e.Leads t u → u.code? f = some code →
    code.ret.holdsFunction = false) {limit levels : Nat} {ps : List Ty} {v : Value}
    (hs : e.Leads t s.host) (hsig : e.unit.module.signature? f = some (.function ps ret))
    (hargs : List.Forall₂ (fun v p => v.Plain e.unit.module.signature? p) args ps)
    (hrun : e.enter limit levels f args s = some (.ok v, s')) : v.Plain e.unit.module.signature? ret := by
  have hwf := CompileOptions.compile_wellFormed h hp hsized
  induction levels generalizing f ps ret args s s' v with
  | zero => cases hrun
  | succ levels ih =>
    -- what the bridge gives an interpreter is the result of an invocation one level down
    have hsupplies : (e.bridge (e.enter limit levels)).Supplies e.unit.module (e.Leads t) :=
      { runsInterpreted := by
          intro g s r s' hs hmode
          rcases Run.bind_eq_some hmode with ⟨f, hmode, -⟩ | ⟨mode, s₁, hmode, heq⟩
          · unfold modeOf at hmode
            split at hmode
            · cases hmode
            · cases hmode
              exact hs
          · cases heq
            obtain ⟨u, hresolve, rfl⟩ := modeOf_eq_ok hmode
            exact hs.tail ⟨g, mode, hresolve⟩
        call := fun g ps ret args _ s v s' hs _ hsig hargs hcall =>
          ⟨hs.trans (enter_leads hcall), ih hs hsig hargs hcall⟩ }
    obtain ⟨c, s₁, hrun⟩ := onExecutor_eq_ok hrun
    obtain ⟨mode, s₂, hmode, hrest⟩ := Run.bind_eq_ok hrun
    obtain ⟨u, hresolve, rfl⟩ := modeOf_eq_ok hmode
    have hu : e.Leads t u := hs.tail ⟨f, mode, hresolve⟩
    obtain ⟨g, hg, -, -, hret, hplain, -⟩ := hwf.signature hsig
    have hinterpreted : ∀ {s₂ : Session ModeTable}, e.Leads t s₂.host → (do
        let g ← Run.need (e.unit.function? f) (.unknownFunction f)
        Exec.Interpreter.run e.unit.module (e.bridge (e.enter limit levels)) limit g args) s₂ = some (.ok v, s₁) →
        v.Plain e.unit.module.signature? ret := by
      intro s₂ hs₂ hrest
      rw [show e.unit.function? f = some g from hg] at hrest
      exact Exec.Interpreter.run_plain hwf hsupplies hsig hg hargs hs₂ hrest
    cases mode with
    | native =>
      obtain ⟨code, hcode, hret', hty, hvalid⟩ :=
        runWith_native (s := { s with chain := c }) h hp hsized (hs.reached ht)
        hresolve hrun
      have heq : code.ret = ret :=
        Option.some.inj (hret'.symm.trans (Option.bind_eq_some_iff.2 ⟨g, hg, hret⟩))
      -- a record may name any function, so a result with functions would not have to resolve
      have hfirst := hnative u f code hu hcode
      exact ⟨hty.trans heq, hvalid, Value.resolved_of_valid v hvalid (hty ▸ hfirst), hplain⟩
    | interpreted | unresolved => exact hinterpreted hu hrest

/-- An invocation on arguments that pass their check gives a valid value of the type that its function
declares, if the function runs natively. If it is interpreted, the functions among the arguments must be
what they are said to be, and functions that run natively must return none. -/
theorem results_typed (h : o.compile p = .ok e.unit) (hp : p.BindingsFit) (hsized : e.unit.module.Sized)
    (ht : e.Reached t) {limit : Nat} {args : List Value} {aborted : Bool} {v : Value}
    (hargs : e.checkArguments f args = .ok ()) (hrun : e.invoke limit f args aborted t = some (.ok v, u))
    (hsafe : (∃ t', e.resolve f t = .ok (.native, t')) ∨ (∀ w ∈ args, w.Resolved e.unit.module.signature?) ∧
      ∀ t' g code, e.Leads t t' → t'.code? g = some code → code.ret.holdsFunction = false) :
    ∃ ret, e.unit.retTy? f = some ret ∧ v.ty = ret ∧ v.Valid := by
  obtain ⟨_, _, hcheck, hrun⟩ := Run.bind_eq_ok hrun
  rw [Run.outcome_apply, hargs] at hcheck
  cases hcheck
  dsimp only at hrun
  split at hrun
  · cases hrun
  · rename_i r s' henter
    cases hrun
    rcases hsafe with ⟨t', hmode⟩ | ⟨hfuns, hnative⟩
    · obtain ⟨c, s₁, hbody⟩ := onExecutor_eq_ok henter
      obtain ⟨code, -, hret, hty, hvalid⟩ := runWith_native (s := ⟨c, t⟩) h hp hsized ht hmode hbody
      exact ⟨code.ret, hret, hty, hvalid⟩
    · have hwf := CompileOptions.compile_wellFormed h hp hsized
      obtain ⟨ps, ret, hsig, hplain⟩ := Exec.accepts_signature hwf (checkArguments_ok hargs hfuns)
      obtain ⟨g, hg, -, -, hret, -, -⟩ := hwf.signature hsig
      have hv := enter_plain (s := ⟨{ maxDepth := e.options.maxDepth, aborted }, t⟩) h hp hsized
        ht hnative .refl hsig
        hplain henter
      exact ⟨ret, Option.bind_eq_some_iff.2 ⟨g, hg, hret⟩, hv.ty, hv.valid⟩

/-- An engine accepts a function for `apply`, which then gives `v`. -/
def Applies (u : CompiledUnit) (options : EngineOptions) (f : FuncId) (v : Value) : Prop :=
  checkArguments ⟨u, options⟩ ⟨0⟩ (handed f) = .ok () ∧
    ∃ t, invoke ⟨u, options⟩ 64 ⟨0⟩ (handed f) false (newTable ⟨u, options⟩) = some (.ok v, t)

theorem applies {options : EngineOptions} (hu : ({} : CompileOptions).compile callbacks =
    .ok ⟨callbackCode, stats⟩) (h : (({} : CompileOptions).compile callbacks).toOption.bind (fun u =>
      (invoke ⟨u, options⟩ 64 ⟨0⟩ (handed f) false (newTable ⟨u, options⟩)).map (·.1.toOption)) = some (some v)) :
    Applies ⟨callbackCode, stats⟩ options f v := by
  rw [hu] at h
  obtain ⟨⟨r, t⟩, hrun, hr⟩ := Option.map_eq_some_iff.1 h
  cases Except.toOption_eq_some hr
  exact ⟨rfl, t, hrun⟩

/-- Natively, a predicate in place of a function of integers does no harm. Interpreted, such a function gives
an integer. -/
theorem results_typed_callbacks : ∃ stats, ({} : CompileOptions).compile callbacks = .ok ⟨callbackCode, stats⟩ ∧
    (Applies ⟨callbackCode, stats⟩ {} ⟨3⟩ (.ofScalar .i64 1) ∧
      ∃ ret, CompiledUnit.retTy? ⟨callbackCode, stats⟩ ⟨0⟩ = some ret ∧ (Value.ofScalar .i64 1).ty = ret ∧
        (Value.ofScalar .i64 1).Valid) ∧
    Applies ⟨callbackCode, stats⟩ { policy := .interpretOnly } ⟨4⟩ (.ofScalar .i64 3) ∧
      ∃ ret, CompiledUnit.retTy? ⟨callbackCode, stats⟩ ⟨0⟩ = some ret ∧ (Value.ofScalar .i64 3).ty = ret ∧
        (Value.ofScalar .i64 3).Valid := by
  obtain ⟨stats, hu⟩ := compile_callbacks
  have hmode : (({} : CompileOptions).compile callbacks).toOption.bind (fun u =>
      ((resolve ⟨u, {}⟩ ⟨0⟩ (newTable ⟨u, {}⟩)).toOption.map (·.1))) = some .native := by decide +kernel
  have hnative : Applies ⟨callbackCode, stats⟩ {} ⟨3⟩ (.ofScalar .i64 1) := applies hu (by decide +kernel)
  have hinterpreted : Applies ⟨callbackCode, stats⟩ { policy := .interpretOnly } ⟨4⟩ (.ofScalar .i64 3) :=
    applies hu (by decide +kernel)
  obtain ⟨hargs, _, hrun⟩ := hnative
  obtain ⟨hargs', _, hrun'⟩ := hinterpreted
  rw [hu] at hmode
  obtain ⟨⟨_, t'⟩, hresolve, rfl⟩ := Option.map_eq_some_iff.1 hmode
  refine ⟨stats, hu, ⟨⟨hargs, _, hrun⟩, results_typed hu bindingsFit_callbacks sized_callbackCode .new hargs hrun
    (.inl ⟨t', Except.toOption_eq_some hresolve⟩)⟩, ⟨hargs', _, hrun'⟩, results_typed hu bindingsFit_callbacks
    sized_callbackCode .new hargs' hrun' (.inr ⟨resolved_handed rfl, fun t' g code ht hcode => ?_⟩)⟩
  -- no function of `callbacks` returns a function
  obtain ⟨r, hr, hty⟩ := Option.bind_eq_some_iff.1 (ret_of_native ((ht.reached .new).holds g code hcode))
  have hret : ∀ q ∈ callbackCode.functions, ∀ t, callbackCode.ty? q.retType = some t →
    t.holdsFunction = false := by
    decide
  exact hret r (List.mem_of_getElem? hr) _ hty

/-- Interpreted, the predicate's answer is the result. -/
theorem mistaken_callback_returned : ∃ stats, ({} : CompileOptions).compile callbacks =
    .ok ⟨callbackCode, stats⟩ ∧ Applies ⟨callbackCode, stats⟩ { policy := .interpretOnly } ⟨3⟩ (.ofBool true) ∧
    CompiledUnit.retTy? ⟨callbackCode, stats⟩ ⟨0⟩ = some .i64 ∧ (Value.ofBool true).ty ≠ .i64 := by
  obtain ⟨stats, hu⟩ := compile_callbacks
  exact ⟨stats, hu, applies hu (by decide +kernel), rfl, by decide⟩

end Engine

end NumericEngine
