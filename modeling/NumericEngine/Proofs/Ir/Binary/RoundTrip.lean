import NumericEngine.Proofs.Ir.Binary.Trees

/-!
# Reading back what is written: modules

`Module.decode_encode`: a module whose ids denote something and whose lengths
can be written is read back from its bytes. `Module.encode_eq_of_decode`: bytes
that are read as a module are the bytes of that module.
-/

namespace NumericEngine.Ir

open List

/-- The texts and lists of a block are short enough for their lengths to be written. -/
structure Block.Short (b : Block) : Prop where
  label : b.label.utf8ByteSize < 2 ^ 32
  instrCount : b.instrs.length < 2 ^ 32
  instrs : ∀ i ∈ b.instrs, i.Short

structure Function.Short (f : Function) : Prop where
  name : f.name.utf8ByteSize < 2 ^ 32
  params : f.params.length < 2 ^ 32
  regTypes : f.regTypes.size < 2 ^ 32
  slotTypes : f.slotTypes.size < 2 ^ 32
  blockCount : f.blocks.length < 2 ^ 32
  blocks : ∀ b ∈ f.blocks, b.Short

structure Module.Short (m : Module) : Prop where
  typeCount : m.types.size < 2 ^ 32
  types : ∀ t ∈ m.types.types, t.Short
  constantCount : m.constants.size < 2 ^ 32
  constants : ∀ v ∈ m.constants.values, v.Short
  functionCount : m.functions.length < 2 ^ 32
  functions : ∀ f ∈ m.functions, f.Short

/-- Functions and blocks are where their ids say, and every id that a function mentions denotes
something. -/
structure Module.Addressed (m : Module) : Prop where
  functionIds : ∀ (i : Nat) (f : Function), m.functions[i]? = some f → f.id.index.toNat = i
  blockIds : ∀ f ∈ m.functions, ∀ (i : Nat) (b : Block), f.blocks[i]? = some b →
    b.id.index.toNat = i
  types : ∀ f ∈ m.functions, ∀ t, t = f.retType ∨ t ∈ f.regTypes ∨ t ∈ f.slotTypes →
    t.index.toNat < m.types.size
  targets : ∀ f ∈ m.functions, ∀ b ∈ f.blocks, ∀ t ∈ b.terminator.successors,
    t.index.toNat < f.blocks.length
  constants : ∀ f ∈ m.functions, ∀ b ∈ f.blocks, ∀ dst c, Instr.define dst (.const c) ∈ b.instrs →
    c.index.toNat < m.constants.size
  callees : ∀ f ∈ m.functions, ∀ b ∈ f.blocks, ∀ dst g args,
    Instr.define dst (.call g args) ∈ b.instrs ∨ Instr.define dst (.funcRef g) ∈ b.instrs →
    g.index.toNat < m.functions.length

/-- The primitives of all types of a module exist, and its constants are well formed. -/
structure Module.SoundTables (m : Module) : Prop where
  types : ∀ t ∈ m.types.types, t.PrimsExist
  constantTypes : ∀ v ∈ m.constants.values, v.ty.PrimsExist
  constants : ∀ v ∈ m.constants.values, v.Valid

namespace Reader

theorem reads_basicBlock {b : Block} (h : b.Short) : Reads basicBlock (Binary.basicBlock b) b := by
  have hinstrs : Reads (seq instr) (Binary.seq Binary.instr b.instrs) b.instrs := by
    refine reads_seq h.instrCount ?_ fun i hi => reads_instr (h.instrs i hi)
    intro i _
    cases i with
    | store => simp [Binary.instr]
    | define dst r => simp [Binary.instr, Rhs.define_eq]
  rw [Binary.basicBlock, append_assoc, append_assoc]
  exact (reads block b.id).bind ((reads_text h.label).bind (hinstrs.bind
    (reads terminator b.terminator).map))

instance : Exact basicBlock Binary.basicBlock :=
  .of_start <| .bind fun _ => .bind fun _ => .bind fun _ => .bind fun _ => .pure (by simp [Binary.basicBlock])

theorem reads_function {f : Function} (h : f.Short) : Reads function (Binary.function f) f := by
  have hblocks : Reads (seq basicBlock) (Binary.seq Binary.basicBlock f.blocks) f.blocks := by
    refine reads_seq h.blockCount ?_ fun b hb => reads_basicBlock (h.blocks b hb)
    intro b _
    simp only [Binary.basicBlock, Binary.block, Binary.u32, length_append, length_leBytes]
    omega
  simp only [Binary.function, append_assoc]
  exact (reads func f.id).bind ((reads_text h.name).bind ((reads_regs h.params).bind
    ((reads typeId f.retType).bind ((reads_list h.regTypes).bind ((reads_list h.slotTypes).bind hblocks.map)))))

instance : Exact function Binary.function :=
  .of_start <| .bind fun _ => .bind fun _ => .bind fun _ => .bind fun _ => .bind fun _ => .bind fun _ =>
    .bind fun _ => .pure (by simp [Binary.function])

theorem reads_functionsFrom (index : Nat)
    (hid : ∀ (i : Nat) (f : Function), fs[i]? = some f → f.id.index.toNat = index + i) (h : ∀ f ∈ fs, f.Short) :
    Reads (functionsFrom index fs.length) (fs.flatMap Binary.function) fs := by
  induction fs generalizing index with
  | nil => exact Reads.pure []
  | cons f fs ih =>
    rw [flatMap_cons]
    refine (reads_function (h f mem_cons_self)).bind ?_
    rw [if_pos (by rw [hid 0 f rfl, Nat.add_zero])]
    refine (ih (index + 1) ?_ fun g hg => h g (mem_cons_of_mem f hg)).map
    intro i g hg
    rw [hid (i + 1) g hg]
    omega

theorem functionsFrom_ok (h : functionsFrom index n c = .ok (fs, c')) :
    fs.length = n ∧ c.rest = fs.flatMap Binary.function ++ c'.rest := by
  induction n generalizing c fs index with
  | zero =>
    obtain ⟨rfl, rfl⟩ := pure_ok.1 h
    exact ⟨rfl, rfl⟩
  | succ n ih =>
    obtain ⟨f, c₁, hf, h⟩ := bind_ok.1 h
    split at h
    · obtain ⟨gs, c₂, hgs, h⟩ := bind_ok.1 h
      obtain ⟨rfl, rfl⟩ := pure_ok.1 h
      obtain ⟨hlen, hrest⟩ := ih hgs
      rw [length_cons, hlen, Exact.rest hf, hrest, flatMap_cons,
        append_assoc]
      exact ⟨rfl, rfl⟩
    · exact (malformed_ok.1 h).elim

theorem reads_functions {m : Module} (h : m.Short) (ha : m.Addressed) :
    Reads functions (Binary.seq Binary.function m.functions) m.functions := by
  refine Reads.counted h.functionCount (length_le_flatMap ?_) (reads_functionsFrom 0 ?_ h.functions)
  · intro f _
    simp only [Binary.function, Binary.func, Binary.u32, length_append, length_leBytes]
    omega
  · intro i f hf
    rw [ha.functionIds i f hf, Nat.zero_add]

instance : Exact functions (Binary.seq Binary.function) := .of_start <| .bind fun n => by
  intro c fs c' h
  obtain ⟨rfl, hrest⟩ := functionsFrom_ok h
  rw [hrest, Binary.seq, append_assoc]
  rfl

theorem module_ok :
    Reader.module depth c = .ok (m, c') ↔ ∃ c₁ c₂ ts c₃ vs c₄ fs,
      take 4 c = .ok (Binary.magic, c₁) ∧ word 2 c₁ = .ok (UInt64.ofNat Binary.version, c₂) ∧
      seq (type depth) c₂ = .ok (ts, c₃) ∧ seq (value depth) c₃ = .ok (vs, c₄) ∧
      functions c₄ = .ok (fs, c') ∧ c'.rest = [] ∧
      m = { types := ⟨ts.toArray⟩, constants := ⟨vs.toArray⟩, functions := fs } := by
  unfold Reader.module
  constructor
  · intro h
    obtain ⟨bs, c₁, hbs, h⟩ := bind_ok.1 h
    split at h
    · obtain ⟨_, _, h, -⟩ := bind_ok.1 h
      exact (throw_ok.1 h).elim
    rename_i hmagic
    obtain ⟨w, c₂, hw, h⟩ := bind_ok.1 h
    split at h
    · obtain ⟨_, _, h, -⟩ := bind_ok.1 h
      exact (throw_ok.1 h).elim
    rename_i hversion
    obtain ⟨ts, c₃, hts, h⟩ := bind_ok.1 h
    obtain ⟨vs, c₄, hvs, h⟩ := bind_ok.1 h
    obtain ⟨fs, c₅, hfs, h⟩ := bind_ok.1 h
    obtain ⟨c₆, c₇, hget, h⟩ := bind_ok.1 h
    obtain ⟨rfl, rfl⟩ := get_ok.1 hget
    split at h
    · rename_i hempty
      obtain ⟨rfl, rfl⟩ := pure_ok.1 h
      have hw' : w = UInt64.ofNat Binary.version := UInt64.toNat_inj.1 (not_not.1 hversion)
      exact ⟨c₁, c₂, ts, c₃, vs, c₄, fs, not_not.1 hmagic ▸ hbs, hw' ▸ hw, hts, hvs, hfs,
        isEmpty_iff.1 hempty, rfl⟩
    · exact (malformed_ok.1 h).elim
  · rintro ⟨c₁, c₂, ts, c₃, vs, c₄, fs, hmagic, hversion, hts, hvs, hfs, hempty, rfl⟩
    refine bind_ok.2 ⟨_, c₁, hmagic, ?_⟩
    rw [if_neg (not_not.2 rfl)]
    refine bind_ok.2 ⟨_, c₂, hversion, ?_⟩
    rw [if_neg (by decide)]
    refine bind_ok.2 ⟨ts, c₃, hts, bind_ok.2 ⟨vs, c₄, hvs, bind_ok.2 ⟨fs, c', hfs, ?_⟩⟩⟩
    refine bind_ok.2 ⟨c', c', get_ok.2 ⟨rfl, rfl⟩, ?_⟩
    rw [if_pos (isEmpty_iff.2 hempty)]
    rfl

end Reader

namespace Module

open Reader

variable {m : Module}

/-- The depth of the reader is the length of the bytes, so no type or value is too deep for it. -/
theorem read_module (h : m.Short) (ha : m.Addressed) (ht : m.SoundTables) :
    ∃ c', Reader.module (m.encode.length + 1) { rest := m.encode } = .ok (m, c') := by
  obtain ⟨depth, hdepth⟩ : ∃ depth, depth = m.encode.length + 1 := ⟨_, rfl⟩
  rw [← hdepth]
  have hlen : m.encode.length = 6 + (Binary.seq Binary.type m.types.types.toList).length +
      (Binary.seq Binary.value m.constants.values.toList).length +
      (Binary.seq Binary.function m.functions).length := by
    simp only [encode, Binary.module, Binary.magic, length_append, length_leBytes,
      length_cons, length_nil]
  have htypes : Reads (seq (type depth)) (Binary.seq Binary.type m.types.types.toList)
      m.types.types.toList := by
    refine reads_seq h.typeCount (fun t _ => Binary.length_type_pos t) ?_
    intro t hmem
    have hle := length_le_flatMap_of_mem Binary.type hmem
    rw [Binary.seq, length_append] at hlen
    rw [Array.mem_toList_iff] at hmem
    exact reads_type t (ht.types t hmem) (h.types t hmem) (by omega)
  have hvalues : Reads (seq (value depth)) (Binary.seq Binary.value m.constants.values.toList)
      m.constants.values.toList := by
    refine reads_seq h.constantCount (fun v _ => Binary.length_value_pos v) ?_
    intro v hmem
    have hle := length_le_flatMap_of_mem Binary.value hmem
    rw [Binary.seq, Binary.seq, length_append, length_append] at hlen
    rw [Array.mem_toList_iff] at hmem
    exact reads_value v (ht.constants v hmem) (ht.constantTypes v hmem) (h.constants v hmem)
      (by omega)
  have hfunctions := reads_functions h ha []
  rw [append_nil] at hfunctions
  have hbytes : m.encode = Binary.magic ++ (leBytes 2 (UInt64.ofNat Binary.version) ++
      (Binary.seq Binary.type m.types.types.toList ++
        (Binary.seq Binary.value m.constants.values.toList ++
          Binary.seq Binary.function m.functions))) := by
    simp only [encode, Binary.module, append_assoc]
  rw [hbytes]
  exact ⟨_, module_ok.2 ⟨_, _, _, _, _, _, _, reads_take (n := 4) rfl _ _,
    reads_word (by decide) (by decide) _ _, htypes _ _, hvalues _ _, hfunctions _, rfl, rfl⟩⟩

theorem constants_of_decode (h : decode bs = .ok m) (hv : m.constants.get? c = some v) : v.Valid := by
  obtain ⟨⟨m, _⟩, hm, h⟩ := Except.bind_eq_ok.1 h
  obtain ⟨_, -, h⟩ := Except.bind_eq_ok.1 h
  cases h
  obtain ⟨_, _, _, _, vs, _, _, -, -, -, hvs, -, -, rfl⟩ := module_ok.1 hm
  obtain ⟨n, _, -, hvs⟩ := bind_ok.1 hvs
  exact times_all (fun _ _ _ => value_valid) hvs v (List.mem_toArray.1 (Array.mem_of_getElem? hv))

theorem dangling?_of_addressed (h : m.Addressed) (hf : f ∈ m.functions)
    (hb : b ∈ f.blocks) (hi : i ∈ b.instrs) : m.dangling? i = none := by
  have hfun : ∀ g : FuncId, g.index.toNat < m.functions.length → (m.function? g).isSome = true := by
    intro g hg
    rw [function?, getElem?_eq_getElem hg]
    rfl
  unfold dangling?
  split
  · rename_i dst c
    have hc := h.constants f hf b hb dst c hi
    rw [if_pos]
    rw [ConstantPool.get?, Array.getElem?_eq_getElem hc]
    rfl
  · rename_i dst g args
    rw [if_pos (hfun g (h.callees f hf b hb dst g args (.inl hi)))]
  · rename_i dst g
    rw [if_pos (hfun g (h.callees f hf b hb dst g [] (.inr hi)))]
  · rfl

theorem danglingFrom?_of_addressed (h : m.Addressed)
    (hf : f ∈ m.functions) (index : Nat) (hsub : ∀ b ∈ bs, b ∈ f.blocks)
    (hid : ∀ (i : Nat) (b : Block), bs[i]? = some b → b.id.index.toNat = index + i) :
    m.danglingFrom? f index bs = none := by
  induction bs generalizing index with
  | nil => rfl
  | cons b bs ih =>
    have hb := hsub b mem_cons_self
    have hrest : m.danglingFrom? f (index + 1) bs = none := by
      refine ih (index + 1) (fun b' hb' => hsub b' (mem_cons_of_mem b hb')) ?_
      intro i b' hb'
      rw [hid (i + 1) b' hb']
      omega
    have htargets : ¬ b.terminator.successors.any (f.blocks.length ≤ ·.index.toNat) = true := by
      rw [any_eq_true]
      rintro ⟨t, ht, hle⟩
      have := h.targets f hf b hb t ht
      have := of_decide_eq_true hle
      omega
    have hhere : m.danglingIn? f index b = none := by
      have hindex : b.id.index.toNat = index := hid 0 b rfl
      rw [danglingIn?, if_neg (not_not.2 hindex), if_neg htargets, findSome?_eq_none_iff]
      exact fun i hi => dangling?_of_addressed h hf hb hi
    rw [danglingFrom?, hhere, hrest]
    rfl

theorem checkIds_of_addressed (h : m.Addressed) : m.checkIds = .ok () := by
  have hnone : ∀ f ∈ m.functions, m.danglingOf? f = none := by
    intro f hf
    have hknown : ∀ t, t = f.retType ∨ t ∈ f.regTypes ∨ t ∈ f.slotTypes →
        decide (t.index.toNat < m.types.size) = true := fun t ht => decide_eq_true (h.types f hf t ht)
    have hall : (decide (f.retType.index.toNat < m.types.size) &&
        f.regTypes.all (fun t => decide (t.index.toNat < m.types.size)) &&
        f.slotTypes.all (fun t => decide (t.index.toNat < m.types.size))) = true := by
      simp only [Bool.and_eq_true]
      exact ⟨⟨hknown _ (.inl rfl), Array.all_eq_true_iff_forall_mem.2 fun t ht =>
        hknown t (.inr (.inl ht))⟩, Array.all_eq_true_iff_forall_mem.2 fun t ht =>
        hknown t (.inr (.inr ht))⟩
    unfold danglingOf?
    simp only [hall, Bool.not_true, Bool.false_eq_true, if_false]
    exact danglingFrom?_of_addressed h hf 0 (fun b hb => hb) fun i b hb => by
      rw [h.blockIds f hf i b hb, Nat.zero_add]
  unfold checkIds
  generalize m.functions = fs at hnone
  induction fs with
  | nil => rfl
  | cons f fs ih =>
    rw [forM_eq_forM, forM_cons, hnone f mem_cons_self]
    exact ih fun g hg => hnone g (mem_cons_of_mem f hg)

theorem decode_encode (h : m.Short) (ha : m.Addressed) (ht : m.SoundTables) : decode m.encode = .ok m := by
  obtain ⟨c', hread⟩ := read_module h ha ht
  unfold decode
  rw [StateT.run, hread]
  show (m.checkIds >>= fun _ => pure m) = _
  rw [checkIds_of_addressed ha]
  rfl

theorem encode_eq_of_decode (h : decode bs = .ok m) : m.encode = bs := by
  obtain ⟨⟨m', c'⟩, hread, h⟩ := Except.bind_eq_ok.1 h
  obtain ⟨_, -, h⟩ := Except.bind_eq_ok.1 h
  cases h
  obtain ⟨c₁, c₂, ts, c₃, vs, c₄, fs, hmagic, hversion, hts, hvs, hfs, hempty, rfl⟩ :=
    module_ok.1 hread
  have hbs : bs = Binary.magic ++ c₁.rest := (take_ok hmagic).2
  rw [hbs, (word_ok (by decide) hversion).1, Exact.rest hts,
    Exact.rest hvs, Exact.rest hfs, hempty]
  simp [encode, Binary.module]

end Module

end NumericEngine.Ir
