import NumericEngine.Proofs.Compile.Runs
import NumericEngine.Proofs.Ir.Binary.RoundTrip
import NumericEngine.Proofs.Lowering.Program

/-!
# Compiled units are read back from their bytes

The module of a compiled unit has all that its bytes need to be read back:
functions and blocks are in the places that their ids say, ids denote something,
types exist and constants are valid.
-/

namespace NumericEngine

open List

/-! ## Types that others call for -/

namespace Ty

mutual
theorem Formed.primsExist : (t : Ty) → t.Formed → t.PrimsExist
  | prim .., h => h
  | vector e _, h | tensor e _, h => Formed.primsExist e (formed_of_asElem h)
  | complex e, h => Formed.primsExist e (formed_of_kind (Option.isSome_of_any h))
  | struct fs, h => FormedFields.primsExist fs h
  | function ps r, h => ⟨FormedAll.primsExist ps h.1, Formed.primsExist r h.2⟩
  | reference t _, h => Formed.primsExist t h
theorem FormedAll.primsExist : (ts : List Ty) → FormedAll ts → ParamPrimsExist ts
  | [], _ => trivial
  | t :: ts, h => ⟨Formed.primsExist t h.1, FormedAll.primsExist ts h.2⟩
theorem FormedFields.primsExist : (fs : List (String × Ty)) → FormedFields fs → FieldPrimsExist fs
  | [], _ => trivial
  | (_, t) :: fs, h => ⟨Formed.primsExist t h.1, FormedFields.primsExist fs h.2⟩
end

theorem formed_record (h : ∀ p ∈ ps, p.Formed) : (record ps).Formed := by
  have hfrom (i : Nat) : FormedFields (recordFrom i ps) := by
    induction ps generalizing i with
    | nil => exact trivial
    | cons p ps ih =>
      rw [forall_mem_cons] at h
      exact ⟨h.1, ih h.2 _⟩
  exact hfrom 0

theorem Formed.parts {t : Ty} (h : t.Formed) : ∀ u ∈ t.parts, u.Formed := by
  cases t with
  | prim p w => simp [Ty.parts]
  | vector e n | tensor e ds => simpa [Ty.parts] using formed_of_asElem h
  | complex e => simpa [Ty.parts] using formed_of_kind (Option.isSome_of_any h)
  | reference t m => exact forall_mem_singleton.2 h
  | struct fs =>
    intro u hu
    obtain ⟨f, hf, rfl⟩ := mem_map.1 hu
    exact formedFields_iff.1 h f hf
  | function ps r =>
    have hps := formedAll_iff.1 h.1
    refine forall_mem_cons.2 ⟨formed_record hps, fun u hu => ?_⟩
    rcases mem_append.1 hu with hu | hu
    · exact hps u hu
    · obtain rfl := mem_singleton.1 hu
      exact h.2

end Ty

theorem TypeTable.formed_closeFrom {t : TypeTable}
    (ht : ∀ u ∈ t.types, u.Formed) (hp : ∀ u ∈ pending, u.Formed) :
    ∀ u ∈ (t.closeFrom fuel pending seen).types, u.Formed := by
  induction fuel generalizing pending seen t with
  | zero => exact ht
  | succ fuel ih =>
    cases pending with
    | nil => exact ht
    | cons u pending =>
      rw [forall_mem_cons] at hp
      rw [closeFrom]
      split
      · exact ih ht hp.2
      · refine ih (Lowering.Build.formed_intern ht hp.1) fun v hv => ?_
        rcases mem_append.1 hv with hv | hv
        · exact hp.1.parts v (mem_reverse.1 hv)
        · exact hp.2 v hv

namespace Ir.Module

variable {m : Module}

/-! ## Tables -/

theorem formed_of_mapM (hm : m.Tabled) {ids : List TypeId}
    (h : ids.mapM m.ty? = some ts) : ∀ t ∈ ts, t.Formed := by
  induction ids generalizing ts with
  | nil =>
    cases h
    simp
  | cons id ids ih =>
    rw [mapM_cons] at h
    obtain ⟨t, ht, h⟩ := Option.bind_eq_some_iff.1 h
    obtain ⟨ts', hts, h⟩ := Option.bind_eq_some_iff.1 h
    cases h
    exact forall_mem_cons.2 ⟨hm.types t (Array.mem_of_getElem? ht), ih hts⟩

theorem Tabled.closeTypes (hm : m.Tabled) : m.closeTypes.Tabled where
  types := by
    refine TypeTable.formed_closeFrom hm.types fun u hu => ?_
    rcases mem_append.1 (mem_reverse.1 hu) with hu | hu
    · exact hm.types u (Array.mem_toList_iff.1 hu)
    · obtain ⟨ps, hps, rfl⟩ := mem_map.1 hu
      obtain ⟨f, -, hf⟩ := mem_filterMap.1 hps
      exact Ty.formed_record (formed_of_mapM hm hf)
  constants := hm.constants
  functions f hf := (hm.functions f hf).mono m.le_closeTypes

theorem Tabled.optimize (hm : m.Tabled) (level : Nat) : (m.optimize level).1.Tabled where
  types := by
    rw [m.types_optimize]
    exact hm.types
  constants := by
    intro v hv
    rcases (m.gains_optimize level).scalars v hv with hv | ⟨k, w, rfl⟩
    · exact hm.constants v hv
    · exact Value.isConstant_ofScalar k w
  functions := by
    intro f' hf'
    obtain ⟨f, hf, hs⟩ := forall₂_exists_left (m.shaped_optimize level) hf'
    rw [m.types_optimize, hs.header]
    have h := hm.functions f hf
    exact ⟨h.ret, h.regs, h.slots⟩

theorem Tabled.soundTables (hm : m.Tabled) : m.SoundTables where
  types t ht := Ty.Formed.primsExist t (hm.types t ht)
  constantTypes v hv := Ty.Formed.primsExist v.ty (hm.constants v hv).formed
  constants v hv := (hm.constants v hv).valid

/-! ## Ids -/

/-- Functions and blocks are in the places that their ids say. -/
structure Numbered (m : Module) : Prop where
  functions : ∀ (i : Nat) (f : Function), m.functions[i]? = some f → f.id.index.toNat = i
  blocks : ∀ f ∈ m.functions, ∀ (i : Nat) (b : Block), f.blocks[i]? = some b → b.id.index.toNat = i

theorem Numbered.optimize (hm : m.Numbered) (level : Nat) : (m.optimize level).1.Numbered where
  functions i f' hf' := by
    obtain ⟨f, hf, hs⟩ := forall₂_getElem?_right (m.shaped_optimize level) hf'
    rw [hs.header]
    exact hm.functions i f hf
  blocks f' hf' i b' hb' := by
    obtain ⟨f, hf, hs⟩ := forall₂_exists_left (m.shaped_optimize level) hf'
    obtain ⟨b, hb, hbs⟩ := forall₂_getElem?_right hs.blocks hb'
    rw [hbs.id]
    exact hm.blocks f hf i b hb

theorem addressed_of_wellFormed (hm : m.WellFormed) (hn : m.Numbered) (ht : m.Tabled) :
    m.Addressed where
  functionIds := hn.functions
  blockIds := hn.blocks
  types f hf t h := by
    have hf := ht.functions f hf
    rcases h with rfl | h | h
    · exact hf.ret
    · exact hf.regs t h
    · exact hf.slots t h
  targets f hf b hb s hs := by
    obtain ⟨entry, ret, -, -, hcode⟩ := (hm f hf).code
    obtain ⟨i, hi⟩ := Function.body_of_mem hb
    obtain ⟨is, t, hbody, -⟩ := hcode.edge i _ _ hi s hs
    obtain ⟨b', hb', -⟩ := Option.map_eq_some_iff.1 hbody
    exact (List.getElem?_eq_some_iff.1 hb').1
  constants f hf b hb dst c hc := by
    obtain ⟨entry, ret, -, -, hcode⟩ := (hm f hf).code
    obtain ⟨i, hi⟩ := Function.body_of_mem hb
    obtain ⟨t, -, v, hv, -⟩ := (hcode.sequence i _ _ hi).typed hc
    exact (Array.getElem?_eq_some_iff.1 hv).1
  callees f hf b hb dst g args h := by
    obtain ⟨entry, ret, -, -, hcode⟩ := (hm f hf).code
    obtain ⟨i, hi⟩ := Function.body_of_mem hb
    have htyped {rhs : Rhs} (h : Instr.define dst rhs ∈ b.instrs) := (hcode.sequence i _ _ hi).typed h
    have hknown {t : Ty} (h : m.signature? g = some t) : g.index.toNat < m.functions.length := by
      obtain ⟨f', hf', -⟩ := Option.bind_eq_some_iff.1 h
      exact (List.getElem?_eq_some_iff.1 hf').1
    rcases h with h | h
    · obtain ⟨t, -, ps, hg, -⟩ := htyped h
      exact hknown hg
    · obtain ⟨t, -, hg, -⟩ := htyped h
      exact hknown hg

theorem Short.sized (h : m.Short) : m.Sized where
  types := Nat.le_of_lt h.typeCount
  constants := Nat.le_of_lt h.constantCount
  functions := Nat.le_of_lt h.functionCount
  fields _ _ hid := Nat.le_of_lt (h.types _ (Array.mem_of_getElem? hid)).1
  regs f hf := Nat.le_of_lt (h.functions f hf).regTypes
  slots f hf := Nat.le_of_lt (h.functions f hf).slotTypes
  blocks f hf := Nat.le_of_lt (h.functions f hf).blockCount

end Ir.Module

/-! ## Units -/

namespace CompileOptions

variable {o : CompileOptions} {p : Source.Program} {m : Ir.Module} {u : CompiledUnit}

theorem lower_tabled (h : lower p = .ok m) (hp : p.BindingsFit) (hm : m.Sized) : m.Tabled ∧ m.Numbered := by
  obtain ⟨fs, hfs, hlower⟩ := lower_ok h
  have hlen : m.functions.length = fs.length := by
    have := Lowering.length_programFrom hlower
    simpa using this
  obtain ⟨htyped, hids⟩ := Typing.checkProgram_ok hfs (hlen ▸ hm.functions) (hp fs hfs)
  have hlowers := Lowering.program_lowers hlower htyped hm
  refine ⟨Lowering.program_tabled hlower htyped, ?_, ?_⟩
  · intro i g hg
    obtain ⟨f, hf, hfg⟩ := forall₂_getElem?_right hlowers hg
    have hlt : i < 2 ^ 32 :=
      Nat.lt_of_lt_of_le (List.getElem?_eq_some_iff.1 hg).1 hm.functions
    rw [hfg.id, hids i f hf]
    exact Nat.mod_eq_of_lt hlt
  · intro g hg
    obtain ⟨f, hf, hfg⟩ := forall₂_exists_left hlowers hg
    exact hfg.blockIds

theorem compile_tabled (h : o.compile p = .ok u) (hp : p.BindingsFit) (hu : u.module.Sized) :
    u.module.Tabled ∧ u.module.Numbered := by
  obtain ⟨m, hm, heq⟩ := compile_ok h
  rw [heq] at hu ⊢
  obtain ⟨htabled, hnumbered⟩ := lower_tabled hm hp hu.of_closeTypes.of_optimize
  have hnumbered := hnumbered.optimize o.level
  exact ⟨(htabled.optimize o.level).closeTypes, hnumbered.functions, hnumbered.blocks⟩

theorem compile_addressed (h : o.compile p = .ok u) (hp : p.BindingsFit) (hu : u.module.Sized) :
    u.module.Addressed ∧ u.module.SoundTables := by
  obtain ⟨htabled, hnumbered⟩ := compile_tabled h hp hu
  exact ⟨Ir.Module.addressed_of_wellFormed (compile_wellFormed h hp hu) hnumbered htabled,
    htabled.soundTables⟩

end CompileOptions

/-- What is written is read back: a module whose ids denote what they should, whose types exist and
whose constants are valid, and in particular the module of a compiled unit. -/
theorem Ir.Module.round_trip {m : Ir.Module} (hs : m.Short) :
    (m.Addressed → m.SoundTables → decode m.encode = .ok m) ∧
      ∀ (o : CompileOptions) (p : Source.Program) (u : CompiledUnit), p.BindingsFit →
        o.compile p = .ok u → u.module = m → decode m.encode = .ok m := by
  refine ⟨decode_encode hs, ?_⟩
  rintro o p u hp h rfl
  obtain ⟨haddressed, htables⟩ := CompileOptions.compile_addressed h hp hs.sized
  exact decode_encode hs haddressed htables

open CompileOptions in
theorem Ir.Module.round_trip_offset : ∃ u : CompiledUnit,
    ({} : CompileOptions).compile offset = .ok u ∧ u.module.Short ∧ u.module.Addressed ∧
      u.module.SoundTables ∧ decode u.module.encode = .ok u.module := by
  obtain ⟨stats, hu⟩ := compile_offset
  have hshort : (offsetFolded #[.i64, .record [.i64]]).Short := by
    refine ⟨by decide, ?_, by decide, ?_, by decide, ?_⟩
    · have hlabel : (toString 0).utf8ByteSize < 2 ^ 32 := by decide
      simpa [offsetFolded, offsetWith, Ty.i64, Ty.ofKind, Ty.record, Ty.recordFrom, Ty.Short,
        Ty.ShortFields] using hlabel
    · simp [offsetFolded, offsetWith, Value.ofScalar, Ty.ofKind, Value.Short, Ty.Short]
    · refine List.forall_mem_singleton.2 ⟨by decide, by decide, by decide, by decide, by decide, ?_⟩
      refine List.forall_mem_singleton.2 ⟨by decide, by decide, ?_⟩
      simp [Instr.Short, Rhs.Short]
  obtain ⟨haddressed, htables⟩ := compile_addressed hu bindingsFit_offset hshort.sized
  exact ⟨_, hu, hshort, haddressed, htables,
    (round_trip hshort).2 _ offset _ bindingsFit_offset hu rfl⟩

end NumericEngine
