import NumericEngine.Proofs.Ir.Verified

/-!
# The rules of verification

What verification asks of the types of an instruction, rule by rule. The rules
are weaker than the typing of instructions: they leave open whether an operator
is defined on its operands, and whether a result has the shape that its type
declares.
-/

namespace NumericEngine.Ir

open NumericEngine.Except (bind_eq_ok ok_bind pure_eq_ok)

theorem sameType_iff : sameType a b = true ↔ a.Same b := by
  unfold sameType Ty.Same
  split
  · simp only [beq_iff_eq, Ty.reference.injEq]
    refine ⟨fun h => .inr ⟨_, _, _, ⟨h, rfl⟩, rfl, rfl⟩, ?_⟩
    rintro (h | ⟨t, m, m', ⟨rfl, -⟩, rfl, -⟩)
    · exact h.1
    · rfl
  · rename_i hne
    simp only [beq_iff_eq]
    refine ⟨.inl, fun h => h.resolve_right ?_⟩
    rintro ⟨t, m, m', rfl, rfl⟩
    exact hne _ _ _ _ rfl rfl

namespace Scope

variable {s : Scope}

theorem seq_eq_ok {y : Fits α} : (x >>= fun _ => y) = .ok a ↔ x = .ok () ∧ y = .ok a := by
  rw [bind_eq_ok]
  exact ⟨fun ⟨_, h⟩ => h, fun h => ⟨(), h⟩⟩

theorem ite_eq_ok [Decidable p] {x : Fits α} : (if p then x else .error e) = .ok a ↔ p ∧ x = .ok a := by
  split <;> simp [*]

theorem refuse_eq_ok [Decidable p] {x : Fits α} : (if p then .error e else x) = .ok a ↔ ¬p ∧ x = .ok a := by
  split <;> simp [*]

/-- The types of what the instructions of the function can name. -/
def context (s : Scope) : Context := s.module.context s.func

theorem ty_eq_ok : s.ty r = .ok t ↔ s.context.reg r = some t := by
  unfold ty
  show _ ↔ s.module.regTy? s.func r = some t
  cases s.module.regTy? s.func r <;> simp

theorem typeOfId_eq_ok {id : TypeId} : s.typeOfId id = .ok t ↔ s.module.ty? id = some t := by
  unfold typeOfId
  cases s.module.ty? id <;> simp

theorem expect_eq_ok : s.expect r t = .ok () ↔ s.context.At r t := by
  unfold expect Context.At
  simp only [bind_eq_ok, ty_eq_ok]
  refine exists_congr fun u => and_congr_right fun _ => ?_
  rw [← sameType_iff]
  cases sameType u t <;> simp [pure_eq_ok]

theorem expectEach_eq_ok : s.expectEach t rs = .ok () ↔ ∀ r ∈ rs, s.context.At r t := by
  induction rs with
  | nil => simp [expectEach]
  | cons r rs ih =>
    simp only [expectEach, seq_eq_ok, expect_eq_ok, ih, List.forall_mem_cons]

theorem expectAll_eq_ok {rs : List Reg} {ts : List Ty} (hlen : rs.length = ts.length) :
    s.expectAll rs ts = .ok () ↔ s.context.Regs rs ts := by
  unfold Context.Regs
  induction rs generalizing ts with
  | nil =>
    obtain rfl := List.length_eq_zero_iff.1 hlen.symm
    simp [expectAll]
  | cons r rs ih =>
    obtain ⟨t, ts, rfl⟩ := List.exists_cons_of_length_eq_add_one hlen.symm
    simp only [expectAll, seq_eq_ok, expect_eq_ok, ih (Nat.succ.inj hlen), List.forall₂_cons]

theorem checkArgs_eq_ok : s.checkArgs args params = .ok () ↔ s.context.Regs args params := by
  unfold checkArgs
  split
  · rename_i hlen
    exact expectAll_eq_ok hlen
  · rename_i hlen
    simp only [reduceCtorEq, false_iff]
    exact fun h => hlen h.length_eq

/-- A vector or tensor with so many axes. -/
def Holds (s : Scope) (r : Reg) (elem : Ty) (rank : Nat) : Prop :=
  ∃ t, s.context.reg r = some t ∧ t.element? = some elem ∧ t.rank? = some rank

theorem container_eq_ok : s.container r = .ok c ↔ s.Holds r c.1 c.2 := by
  unfold container Holds
  simp only [bind_eq_ok, ty_eq_ok]
  refine exists_congr fun t => and_congr_right fun _ => ?_
  obtain ⟨elem, n⟩ := c
  unfold Ty.rank?
  cases t.element? with
  | none => simp
  | some e => cases t.dims? <;> simp [pure_eq_ok]

theorem field_eq_ok : s.field src index = .ok t ↔
    ∃ decl d, s.context.reg src = some (.struct decl) ∧ decl[index.toNat]? = some d ∧ d.2 = t := by
  unfold field
  simp only [bind_eq_ok, ty_eq_ok]
  constructor
  · rintro ⟨u, hu, h⟩
    split at h
    · rename_i decl
      split at h
      · rename_i name t' hd
        cases h
        exact ⟨decl, _, hu, hd, rfl⟩
      · cases h
    · cases h
  · rintro ⟨decl, d, hsrc, hd, rfl⟩
    refine ⟨_, hsrc, ?_⟩
    simp [hd, pure_eq_ok]

end Scope

/-- What verification asks of a right-hand side whose register has type `t`. -/
def Rhs.Accepted (s : Scope) (t : Ty) : Rhs → Prop
  | const c => ∃ v, s.context.const c = some v ∧ t.Same v.ty
  | binary op k l r _ =>
    (k.isFloat = true → op.onFloats = true) ∧ t.Same (.ofKind k) ∧
      s.context.Regs [l, r] [.ofKind k, .ofKind k]
  | compare _ k l r => t.Same .bool ∧ s.context.Regs [l, r] [.ofKind k, .ofKind k]
  | unary op k src _ =>
    Scope.unaryDefined op k = true ∧ t.Same (.ofKind k) ∧ s.context.At src (.ofKind k)
  | convert a b src => t.Same (.ofKind b) ∧ s.context.At src (.ofKind a)
  | complexBinary _ k l r => t.Same (.complexOf k) ∧ s.context.Regs [l, r] [.complexOf k, .complexOf k]
  | complexCompare _ k l r => t.Same .bool ∧ s.context.Regs [l, r] [.complexOf k, .complexOf k]
  | complexUnary _ k src => t.Same (.complexOf k) ∧ s.context.At src (.complexOf k)
  | complexPart _ k src => t.Same (.ofKind k) ∧ s.context.At src (.complexOf k)
  | makeComplex k re im => t.Same (.complexOf k) ∧ s.context.Regs [re, im] [.ofKind k, .ofKind k]
  | makeStruct fields => ∃ decl, t = .struct decl ∧ s.context.Regs fields (decl.map (·.2))
  | extractField src i =>
    ∃ decl d, s.context.reg src = some (.struct decl) ∧ decl[i.toNat]? = some d ∧ t.Same d.2
  | insertField src i v =>
    ∃ decl d, s.context.reg src = some (.struct decl) ∧ decl[i.toNat]? = some d ∧
      s.context.At v d.2 ∧ t.Same (.struct decl)
  | stackSlot slot => ∃ target m, s.context.slot slot = some target ∧ t = .reference target m
  | load a => ∃ target m, s.context.reg a = some (.reference target m) ∧ t.Same target
  | call f args => ∃ ps ret, s.context.sig f = some (.function ps ret) ∧ s.context.Regs args ps ∧ t.Same ret
  | funcRef f => (s.module.function? f).isSome = true ∧ ∃ ps ret, t = .function ps ret
  | callIndirect c args =>
    ∃ ps ret, s.context.reg c = some (.function ps ret) ∧ s.context.Regs args ps ∧ t.Same ret
  | phi incoming => ∀ p ∈ incoming, s.context.At p.2 t
  | makeTensor es =>
    ∃ et rank, t.element? = some et ∧ t.rank? = some rank ∧ (∀ r ∈ es, s.context.At r et) ∧
      ∀ shape, t.fixedShape? = some shape → Shape.count shape = es.length
  | tensorBinary _ l r _ =>
    ∃ et rank, t.element? = some et ∧ t.rank? = some rank ∧ s.Holds l et rank ∧ s.Holds r et rank
  | tensorScale src f _ =>
    ∃ et rank, t.element? = some et ∧ t.rank? = some rank ∧ s.Holds src et rank ∧ s.context.At f et
  | dot l r => ∃ et, s.Holds l et 1 ∧ s.Holds r et 1 ∧ t.Same et
  | matmul l r => ∃ et, s.Holds l et 2 ∧ s.Holds r et 2 ∧ t.element? = some et ∧ t.rank? = some 2
  | sum src => ∃ et rank, s.Holds src et rank ∧ t.Same et
  | extractElement src is =>
    ∃ et, s.Holds src et is.length ∧ (∀ i ∈ is, s.context.At i .i64) ∧ t.Same et
  | dim src axis => ∃ et rank, s.Holds src et rank ∧ axis.toNat < rank ∧ t.Same .i64
  | tensorCast src => ∃ et rank, s.Holds src et rank ∧ t.element? = some et ∧ t.rank? = some rank

section
variable {s : Scope} {dst : Reg} {t : Ty}

theorem Context.regs_pair {Γ : Context} : Γ.Regs [l, r] [tl, tr] ↔ Γ.At l tl ∧ Γ.At r tr := by
  simp [Context.Regs]

theorem Scope.at_iff_same (hdst : s.context.reg dst = some t) : s.context.At dst u ↔ t.Same u := by
  simp [Context.At, hdst]

theorem Scope.signature_eq_some :
    s.context.sig f = some (.function ps ret) ↔ ∃ callee, s.module.function? f = some callee ∧
      callee.paramTypes.mapM s.typeOfId = .ok ps ∧ s.typeOfId callee.retType = .ok ret := by
  show s.module.signature? f = _ ↔ _
  simp only [Module.signature?, Module.paramTys?, Option.bind_eq_bind, Option.pure_def,
    Option.bind_eq_some_iff, Option.some.injEq, Ty.function.injEq, mapM_eq_some, mapM_eq_ok,
    typeOfId_eq_ok]
  constructor
  · rintro ⟨g, hg, qs, hqs, r, hr, rfl, rfl⟩
    exact ⟨g, hg, hqs, hr⟩
  · rintro ⟨g, hg, hqs, hr⟩
    exact ⟨g, hg, ps, hqs, ret, hr, rfl, rfl⟩

/-- Verification accepts the types of a right-hand side when its rule holds. -/
theorem Scope.checkRhs_eq_ok (hdst : s.context.reg dst = some t) {rhs : Rhs} :
    s.checkRhs dst rhs = .ok () ↔ rhs.Accepted s t := by
  have hexpect : ∀ u, s.expect dst u = .ok () ↔ t.Same u := fun u => expect_eq_ok.trans (at_iff_same hdst)
  have hty : s.ty dst = .ok t := ty_eq_ok.2 hdst
  have hcontainer : ∀ c : Ty × Nat, s.container dst = .ok c ↔ t.element? = some c.1 ∧ t.rank? = some c.2 := by
    intro c
    rw [container_eq_ok, Holds]
    simp [hdst]
  cases rhs with
  | const c =>
    simp only [checkRhs, Rhs.Accepted, context, Ir.Module.context]
    cases s.module.constants.get? c <;> simp [hexpect]
  | binary op k l r checked =>
    simp only [checkRhs, refuse_eq_ok, seq_eq_ok, expectKind, hexpect, expect_eq_ok, Rhs.Accepted,
      Context.regs_pair]
    cases k.isFloat <;> cases op.onFloats <;> simp
  | compare op k l r =>
    simp only [checkRhs, seq_eq_ok, expectKind, hexpect, expect_eq_ok, Rhs.Accepted,
      Context.regs_pair]
  | unary op k src checked =>
    simp only [checkRhs, ite_eq_ok, seq_eq_ok, expectKind, hexpect, expect_eq_ok, Rhs.Accepted]
  | convert a b src =>
    simp only [checkRhs, seq_eq_ok, expectKind, hexpect, expect_eq_ok, Rhs.Accepted]
  | complexBinary op k l r | complexCompare op k l r | makeComplex k l r =>
    simp only [checkRhs, seq_eq_ok, expectKind, expectComplex, hexpect, expect_eq_ok,
      Rhs.Accepted, Context.regs_pair]
  | complexUnary op k src | complexPart p k src =>
    simp only [checkRhs, seq_eq_ok, expectKind, expectComplex, hexpect, expect_eq_ok,
      Rhs.Accepted]
  | makeStruct fields =>
    simp only [checkRhs, hty, ok_bind, Rhs.Accepted]
    cases t with
    | struct decl =>
      simp only [Ty.struct.injEq, exists_eq_left']
      split
      · rename_i hlen
        exact expectAll_eq_ok (by simpa using hlen.symm)
      · rename_i hlen
        simp only [reduceCtorEq, false_iff]
        exact fun h => hlen (by simpa using h.length_eq.symm)
    | _ => simp
  | extractField src i =>
    simp only [checkRhs, bind_eq_ok, field_eq_ok, hexpect, Rhs.Accepted]
    constructor
    · rintro ⟨_, ⟨decl, d, hsrc, hd, rfl⟩, hsame⟩
      exact ⟨decl, d, hsrc, hd, hsame⟩
    · rintro ⟨decl, d, hsrc, hd, hsame⟩
      exact ⟨_, ⟨decl, d, hsrc, hd, rfl⟩, hsame⟩
  | insertField src i v =>
    simp only [checkRhs, bind_eq_ok, field_eq_ok, hexpect, ty_eq_ok, Rhs.Accepted]
    constructor
    · rintro ⟨_, ⟨decl, d, hsrc, hd, rfl⟩, ⟨⟩, hv, u, hu, hsame⟩
      obtain rfl := Option.some.inj (hsrc.symm.trans hu)
      exact ⟨decl, d, hsrc, hd, expect_eq_ok.1 hv, hsame⟩
    · rintro ⟨decl, d, hsrc, hd, hv, hsame⟩
      exact ⟨_, ⟨decl, d, hsrc, hd, rfl⟩, (), expect_eq_ok.2 hv, _, hsrc, hsame⟩
  | stackSlot slot =>
    simp only [checkRhs, Rhs.Accepted, context, Ir.Module.context]
    cases s.func.slotTypes[slot.toNat]? with
    | none => simp
    | some id =>
      simp only [bind_eq_ok, typeOfId_eq_ok, hty, ok_bind, Option.bind_some]
      constructor
      · rintro ⟨content, hcontent, h⟩
        cases t with
        | reference target m =>
          simp only at h
          split at h
          · rename_i heq
            exact ⟨target, m, heq ▸ hcontent, rfl⟩
          · cases h
        | _ => cases h
      · rintro ⟨target, m, htarget, rfl⟩
        exact ⟨target, htarget, by simp [pure_eq_ok]⟩
  | load a =>
    simp only [checkRhs, bind_eq_ok, ty_eq_ok, Rhs.Accepted]
    constructor
    · rintro ⟨u, hu, h⟩
      split at h
      · exact ⟨_, _, hu, (hexpect _).1 h⟩
      · cases h
    · rintro ⟨target, m, ha, hsame⟩
      exact ⟨_, ha, (hexpect _).2 hsame⟩
  | call f args =>
    simp only [checkRhs, Rhs.Accepted, signature_eq_some]
    cases s.module.function? f with
    | none => simp
    | some callee =>
      simp only [bind_eq_ok, hexpect, Option.some.injEq]
      constructor
      · rintro ⟨ps, hps, ⟨⟩, hargs, ret, hret, hsame⟩
        exact ⟨ps, ret, ⟨callee, rfl, hps, hret⟩, checkArgs_eq_ok.1 hargs, hsame⟩
      · rintro ⟨ps, ret, ⟨_, rfl, hps, hret⟩, hargs, hsame⟩
        exact ⟨ps, hps, (), checkArgs_eq_ok.2 hargs, ret, hret, hsame⟩
  | funcRef f =>
    simp only [checkRhs, Rhs.Accepted]
    cases s.module.function? f with
    | none => simp
    | some callee =>
      simp only [Option.isNone_some, Bool.false_eq_true, if_false, hty, ok_bind,
        Option.isSome_some, true_and]
      cases t <;> simp [pure_eq_ok]
  | callIndirect c args =>
    simp only [checkRhs, bind_eq_ok, ty_eq_ok, Rhs.Accepted]
    constructor
    · rintro ⟨u, hu, h⟩
      split at h
      · obtain ⟨_, hargs, hret⟩ := bind_eq_ok.1 h
        exact ⟨_, _, hu, checkArgs_eq_ok.1 hargs, (hexpect _).1 hret⟩
      · cases h
    · rintro ⟨ps, ret, hc, hargs, hsame⟩
      exact ⟨_, hc, bind_eq_ok.2 ⟨(), checkArgs_eq_ok.2 hargs, (hexpect _).2 hsame⟩⟩
  | phi incoming =>
    simp only [checkRhs, hty, ok_bind, expectEach_eq_ok, List.forall_mem_map, Rhs.Accepted]
  | makeTensor es =>
    simp only [checkRhs, bind_eq_ok, hcontainer, hty, ok_bind, Rhs.Accepted, Prod.exists]
    refine exists_congr fun et => exists_congr fun rank => ?_
    cases hshape : t.fixedShape? with
    | none => simp [expectEach_eq_ok, and_assoc]
    | some shape =>
      by_cases hcount : Shape.count shape = es.length
      · simp [hcount, expectEach_eq_ok, and_assoc]
      · simp [hcount]
  | tensorBinary op l r checked =>
    simp only [checkRhs, bind_eq_ok, refuse_eq_ok, hcontainer, container_eq_ok, Rhs.Accepted, Prod.exists]
    refine exists_congr fun et => exists_congr fun rank => ?_
    simp [and_assoc, pure_eq_ok]
  | tensorScale src f checked =>
    simp only [checkRhs, bind_eq_ok, refuse_eq_ok, hcontainer, container_eq_ok, expect_eq_ok, Rhs.Accepted,
      Prod.exists]
    refine exists_congr fun et => exists_congr fun rank => ?_
    simp [and_assoc]
  | dot l r =>
    simp only [checkRhs, bind_eq_ok, ite_eq_ok, container_eq_ok, hexpect, Rhs.Accepted, Prod.exists]
    constructor
    · rintro ⟨a, ra, hl, b, rb, hr, ⟨rfl, rfl, rfl⟩, h⟩
      exact ⟨a, hl, hr, h⟩
    · rintro ⟨et, hl, hr, hsame⟩
      exact ⟨et, 1, hl, et, 1, hr, ⟨rfl, rfl, rfl⟩, hsame⟩
  | matmul l r =>
    simp only [checkRhs, bind_eq_ok, ite_eq_ok, hcontainer, container_eq_ok, Rhs.Accepted, Prod.exists]
    constructor
    · rintro ⟨a, ra, hl, b, rb, hr, c, rc, hc, ⟨rfl, rfl, rfl, rfl, rfl⟩, -⟩
      exact ⟨a, hl, hr, hc⟩
    · rintro ⟨et, hl, hr, hc⟩
      exact ⟨et, 2, hl, et, 2, hr, et, 2, hc, ⟨rfl, rfl, rfl, rfl, rfl⟩, rfl⟩
  | sum src =>
    simp only [checkRhs, bind_eq_ok, container_eq_ok, hexpect, Rhs.Accepted, Prod.exists]
  | extractElement src is =>
    simp only [checkRhs, bind_eq_ok, ite_eq_ok, container_eq_ok, hexpect, Rhs.Accepted, Prod.exists]
    refine exists_congr fun et => ⟨?_, ?_⟩
    · rintro ⟨_, hsrc, rfl, _, his, h⟩
      exact ⟨hsrc, expectEach_eq_ok.1 his, h⟩
    · rintro ⟨hsrc, his, h⟩
      exact ⟨_, hsrc, rfl, (), expectEach_eq_ok.2 his, h⟩
  | dim src axis =>
    simp only [checkRhs, bind_eq_ok, ite_eq_ok, container_eq_ok, hexpect, Rhs.Accepted, Prod.exists]
  | tensorCast src =>
    simp only [checkRhs, bind_eq_ok, hcontainer, container_eq_ok, Rhs.Accepted, Prod.exists]
    refine exists_congr fun et => exists_congr fun rank => and_congr_right fun _ => ?_
    constructor
    · rintro ⟨b, rb, ⟨hb, hrb⟩, h⟩
      split at h
      · rename_i heq
        cases heq
        exact ⟨hb, hrb⟩
      · obtain ⟨_, -, h⟩ := bind_eq_ok.1 h
        obtain ⟨_, -, h⟩ := bind_eq_ok.1 h
        cases h
    · rintro ⟨hb, hrb⟩
      exact ⟨et, rank, ⟨hb, hrb⟩, by simp [pure_eq_ok]⟩

theorem Scope.checkRhs_ne_ok (hdst : s.context.reg dst = none) (rhs : Rhs) : s.checkRhs dst rhs ≠ .ok () := by
  have hty : ∀ {u}, s.ty dst = .ok u ↔ False := by simp [ty_eq_ok, hdst]
  have hexpect : ∀ {u}, s.expect dst u = .ok () ↔ False := by simp [expect_eq_ok, Context.At, hdst]
  have hcontainer : ∀ {c}, s.container dst = .ok c ↔ False := by simp [container_eq_ok, Holds, hdst]
  cases rhs with
  | const c | stackSlot slot | call f args =>
    rw [checkRhs]
    split <;> simp [bind_eq_ok, hexpect, hty]
  | load a | callIndirect c args =>
    simp only [checkRhs, ne_eq, bind_eq_ok, not_exists, not_and]
    intro u _
    split <;> simp [seq_eq_ok, hexpect]
  | _ =>
    simp [checkRhs, bind_eq_ok, ite_eq_ok, refuse_eq_ok, expectKind, expectComplex, hty, hexpect, hcontainer]

theorem Scope.checkRhs_iff : s.checkRhs dst rhs = .ok () ↔
    ∃ t, s.context.reg dst = some t ∧ rhs.Accepted s t := by
  cases hdst : s.context.reg dst with
  | none => simpa using checkRhs_ne_ok hdst rhs
  | some t => simpa using checkRhs_eq_ok hdst

end

/-- What verification asks of an instruction. -/
def Instr.Accepted (s : Scope) : Instr → Prop
  | define dst rhs => ∃ t, s.context.reg dst = some t ∧ rhs.Accepted s t
  | store addr value => ∃ target m, s.context.reg addr = some (.reference target m) ∧ s.context.At value target

/-- What verification asks of the end of a block. -/
def Terminator.Accepted (s : Scope) : Terminator → Prop
  | jump _ => True
  | branch c _ _ => s.context.At c .bool
  | ret r => ∃ t, s.module.ty? s.func.retType = some t ∧ s.context.At r t

namespace Scope

variable {s : Scope}

theorem checkInstr_eq_ok : s.checkInstr i = .ok () ↔ i.Accepted s := by
  cases i with
  | define dst rhs => exact checkRhs_iff
  | store addr value =>
    simp only [checkInstr, bind_eq_ok, ty_eq_ok, Instr.Accepted]
    constructor
    · rintro ⟨u, hu, h⟩
      split at h
      · exact ⟨_, _, hu, expect_eq_ok.1 h⟩
      · cases h
    · rintro ⟨target, m, ha, hv⟩
      exact ⟨_, ha, expect_eq_ok.2 hv⟩

theorem unknownReference_eq_none {i : Instr} (h : i.Accepted s) : s.unknownReference block i = none := by
  unfold unknownReference
  split
  · obtain ⟨t, -, ps, ret, hsig, -⟩ := h
    obtain ⟨callee, hcallee, -⟩ := signature_eq_some.1 hsig
    simp [hcallee]
  · obtain ⟨t, -, hf, -⟩ := h
    simpa [Option.isSome_iff_ne_none] using hf
  · obtain ⟨t, -, v, hv, -⟩ := h
    have hv : s.module.constants.get? _ = some v := hv
    simp [hv]
  · rfl

theorem instrErrors_eq_nil : s.instrErrors block i = [] ↔ i.Accepted s := by
  unfold instrErrors
  constructor
  · intro h
    split at h
    · cases h
    · split at h
      · rename_i hok
        exact checkInstr_eq_ok.1 hok
      · cases h
  · intro h
    rw [unknownReference_eq_none h, checkInstr_eq_ok.2 h]

theorem checkTerminator_eq_ok : s.checkTerminator t = .ok () ↔ t.Accepted s := by
  cases t with
  | jump target => simp [checkTerminator, Terminator.Accepted]
  | branch c a b => exact expect_eq_ok
  | ret r => simp only [checkTerminator, bind_eq_ok, typeOfId_eq_ok, expect_eq_ok, Terminator.Accepted]

end Scope

end NumericEngine.Ir
