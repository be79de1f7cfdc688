import CMinusF.Proofs.Graph.Code

/-! Use lists that mirror operand slots: an instruction is listed with an operand once for every
slot that holds it. -/
namespace CMinusF
open List
variable {m m' : Module} {v w : Operand} {i : InstrId} {b p : BlockId} {vs : List Operand}

namespace Module

def Mirror (m : Module) : Prop :=
  ∀ v, v ≠ .hole → ∀ i, (m.uses v).count i = (m.operands i).count v

section
variable (m : Module)

theorem count_uses_addUse (v : Operand) (i : InstrId) (hw : w ≠ .hole) (u : InstrId) :
    ((m.addUse v i).uses w).count u = (m.uses w).count u + if v = w ∧ i = u then 1 else 0 := by
  by_cases hv : v = .hole
  · subst hv
    rw [if_neg (fun h => hw h.1.symm)]
    rfl
  · rw [addUse,uses_modifyUses m _ hv]
    grind

theorem count_uses_removeUse (v : Operand) (i : InstrId) (hw : w ≠ .hole) (u : InstrId) :
    ((m.removeUse v i).uses w).count u = (m.uses w).count u - if v = w ∧ i = u then 1 else 0 := by
  by_cases hv : v = .hole
  · subst hv
    rw [if_neg (fun h => hw h.1.symm)]
    rfl
  · rw [removeUse,uses_modifyUses m _ hv]
    by_cases hvw : v = w
    · grind
    · simp [hvw]

theorem uses_modifyInstr (i : InstrId) (h : Instr → Instr) (hk : ∀ x, (h x).uses = x.uses)
    (v : Operand) :
    (m.modifyInstr i h).uses v = m.uses v := by
  cases v with
  | instr j =>
    simp only [uses,instr_modifyInstr]
    split
    · rename_i hi
      rw [hk,hi]
    · rfl
  | _ => rfl

theorem uses_modifyBlock (b : BlockId) (h : Block → Block) (hk : ∀ x, (h x).uses = x.uses)
    (v : Operand) :
    (m.modifyBlock b h).uses v = m.uses v := by
  cases v with
  | block c =>
    simp only [uses,block_modifyBlock]
    split
    · rename_i hb
      rw [hk,hb]
    · rfl
  | func f =>
    simp only [uses,func_modifyBlock]
    split <;> rfl
  | arg f n =>
    simp only [uses,func_modifyBlock]
    split <;> rfl
  | _ => rfl

end

namespace Mirror

theorem notMem_operands (h : m.Mirror) (hv : v ≠ .hole) (hu : m.uses v = []) (i : InstrId) :
    v ∉ m.operands i := by
  have := h v hv i
  rw [hu] at this
  exact count_eq_zero.mp this.symm

theorem mem_uses_iff (h : m.Mirror) (hv : v ≠ .hole) (i : InstrId) :
    i ∈ m.uses v ↔ v ∈ m.operands i := by
  rw [← count_pos_iff,← count_pos_iff,h v hv i]

theorem setOperand (h : m.Mirror) {n : Nat} (hn : n < (m.operands i).length) (v : Operand) :
    (m.setOperand i n v).Mirror := by
  intro w hw u
  have ho : (m.setOperand i n v).operands u = if i = u then (m.operands i).set n v
      else m.operands u := by
    rw [operands_eq_code,code_setOperand]
    exact apply_ite Instr.operands _ _ _
  have hold : m.operand i n = (m.operands i)[n] := by
    rw [operand,getD_eq_getElem?_getD,getElem?_eq_getElem hn,Option.getD_some]
  have hu := uses_modifyInstr (m.removeUse (m.operand i n) i) i
    (fun x => { x with operands := x.operands.set n v }) (fun _ => rfl) w
  have hs : ((m.setOperand i n v).uses w).count u =
      (m.uses w).count u - (if m.operand i n = w ∧ i = u then 1 else 0) + if v = w ∧
        i = u then 1 else 0 := by
    rw [Module.setOperand,count_uses_addUse _ _ _ hw,hu,count_uses_removeUse _ _ _ hw]
  rw [hs,ho,h w hw u,hold]
  by_cases hu : i = u
  · subst hu
    rw [if_pos rfl,count_set hn]
    simp
  · simp [hu]

theorem replaceIn (h : m.Mirror) (i : InstrId) (old new : Operand) :
    (m.replaceIn i old new).Mirror := by
  -- the number of slots stays the same
  have key : ∀ ns : List Nat, ∀ m' : Module, m'.Mirror → (∀ n ∈ ns, n < (m'.operands i).length) →
      (ns.foldl (fun m n => if m.operand i n = old then m.setOperand i n new else m)
        m').Mirror := by
    intro ns
    induction ns with
    | nil => exact fun m' h _ => h
    | cons n ns ih =>
      intro m' h hn
      rw [foldl_cons]
      split
      · refine ih _ (h.setOperand (hn n (by simp)) new) fun k hk => ?_
        have hl : ((m'.setOperand i n new).operands i).length = (m'.operands i).length := by
          rw [operands_eq_code,code_setOperand,Code.operands_setOperands,length_set]
        rw [hl]
        exact hn k (by simp [hk])
      · exact ih m' h fun k hk => hn k (by simp [hk])
  exact key _ m h fun n hn => mem_range.mp hn

end Mirror

end Module

@[simp] theorem Operand.replace_replace (old new v : Operand) :
    replace old new (replace old new v) = replace old new v := by
  unfold replace
  split <;> simp_all

theorem Operand.replace_of_ne {old new : Operand} (h : v ≠ old) : replace old new v = v := if_neg h

theorem Operand.block_mem_map_replace {b c s : BlockId} {vs : List Operand} (hs : .block s ∈ vs) :
    .block c ∈ vs.map (replace (.block s) (.block b)) ↔ (.block c ∈ vs ∧ c ≠ s) ∨ c = b := by
  rw [List.mem_map]
  constructor
  · rintro ⟨v,hv,hvc⟩
    unfold replace at hvc
    split at hvc
    · cases hvc
      exact .inr rfl
    · rename_i hvs
      subst hvc
      exact .inl ⟨hv,fun heq => hvs (by rw [heq])⟩
  · rintro (⟨hv,hcs⟩ | rfl)
    · exact ⟨_,hv,replace_of_ne fun heq => hcs (block.inj heq)⟩
    · exact ⟨_,hs,if_pos rfl⟩

namespace Module

theorem code_replaceUses (h : m.Mirror) (old : Operand) (hold : old ≠ .hole) (new : Operand) :
    (m.replaceUses old new).code = m.code.mapOperands (Operand.replace old new) ∧
    (m.replaceUses old new).Mirror := by
  have key : ∀ us : List InstrId, ∀ m' : Module, m'.Mirror →
      (us.foldl (fun m user => m.replaceIn user old new) m').Mirror ∧
      (us.foldl (fun m user => m.replaceIn user old new) m').code =
        { m'.code with instr := fun i => if i ∈ us then
            { m'.code.instr i with
              operands := (m'.code.instr i).operands.map (Operand.replace old new) }
          else m'.code.instr i } := by
    intro us
    induction us with
    | nil => exact fun m' h => ⟨h,by simp⟩
    | cons u us ih =>
      intro m' h
      obtain ⟨h1,h2⟩ := ih (m'.replaceIn u old new) (h.replaceIn u old new)
      refine ⟨h1,?_⟩
      rw [foldl_cons,h2,code_replaceIn]
      refine Code.ext rfl rfl rfl (funext fun i => ?_) rfl rfl rfl
      by_cases hu : u = i
      · subst hu
        by_cases hus : u ∈ us <;>
          simp [Code.setOperands,Code.modifyInstr,operands_eq_code]
      · simp [Code.setOperands,Code.modifyInstr,hu,Ne.symm hu]
  obtain ⟨h1,h2⟩ := key (m.uses old) m h
  refine ⟨h2.trans (Code.ext rfl rfl rfl (funext fun i => ?_) rfl rfl rfl),h1⟩
  dsimp only [Code.mapOperands]
  split
  · rfl
  · rename_i hi
    have hno : old ∉ (m.code.instr i).operands := fun hm => hi ((h.mem_uses_iff hold i).mpr hm)
    have hid : ∀ v ∈ (m.code.instr i).operands, Operand.replace old new v = v :=
      fun v hv => Operand.replace_of_ne (by rintro rfl; exact hno hv)
    rw [map_congr_left hid,map_id']

/-! Making instructions and constants. -/

theorem Mirror.instr_lt (h : m.Mirror) {j : InstrId} (hj : .instr j ∈ m.operands i) :
    j < m.instrTable.size := by
  by_contra hlt
  refine h.notMem_operands (by simp) ?_ i hj
  rw [uses,instr,Table.get_of_size_le _ (Nat.not_lt.mp hlt)]
  rfl

theorem Mirror.literal_lt (h : m.Mirror) {c : LiteralId} (hc : .literal c ∈ m.operands i) :
    c < m.literalTable.size := by
  by_contra hlt
  refine h.notMem_operands (by simp) ?_ i hc
  rw [uses,literal,Table.get_of_size_le _ (Nat.not_lt.mp hlt)]
  rfl

theorem get_instr_size (m : Module) : m.instr m.instrTable.size = default :=
  Table.get_of_size_le _ (Nat.le_refl _)

theorem lt_size_of_ne (h : m.instr i ≠ default) : i < m.instrTable.size := by
  by_contra hi
  exact h (Table.get_of_size_le _ (Nat.not_lt.mp hi))

def entries (m : Module) : List Operand :=
  (List.range m.literalTable.size).map .literal ++ (List.range m.globalTable.size).map .global ++
    (List.range m.instrTable.size).map .instr ++ (List.range m.funcTable.size).flatMap fun f =>
      .func f :: (List.range (m.func f).blocks.size).map (fun n => .block ⟨f,n⟩) ++
        (List.range (m.func f).argUses.size).map (.arg f)

theorem uses_of_notMem_entries (hv : v ∉ m.entries) : m.uses v = [] := by
  simp only [entries,mem_append,mem_map,mem_range,mem_flatMap,mem_cons,not_or,not_exists,
    not_and] at hv
  obtain ⟨⟨⟨hl,hg⟩,hi⟩,hf⟩ := hv
  cases v with
  | literal c =>
    rw [uses,literal,Table.get_of_size_le _ (Nat.not_lt.mp fun h => hl c h rfl)]
    rfl
  | global g =>
    rw [uses,global,Table.get_of_size_le _ (Nat.not_lt.mp fun h => hg g h rfl)]
    rfl
  | instr i =>
    rw [uses,instr,Table.get_of_size_le _ (Nat.not_lt.mp fun h => hi i h rfl)]
    rfl
  | func f =>
    rw [uses,func,Table.get_of_size_le _ (Nat.not_lt.mp fun h => (hf f h).1.1 rfl)]
    rfl
  | block b =>
    by_cases hfl : b.func < m.funcTable.size
    · rw [uses,block,Table.get_of_size_le _
        (Nat.not_lt.mp fun h => (hf b.func hfl).1.2 b.number h rfl)]
      rfl
    · rw [uses,block,func,Table.get_of_size_le _ (Nat.not_lt.mp hfl)]
      exact congrArg Block.uses (Table.get_empty _)
  | arg f n =>
    by_cases hfl : f < m.funcTable.size
    · rw [uses,Table.get_of_size_le _ (Nat.not_lt.mp fun h => (hf f hfl).2 n h rfl)]
      rfl
    · rw [uses,func,Table.get_of_size_le _ (Nat.not_lt.mp hfl)]
      exact Table.get_empty _
  | hole => rfl

theorem Mirror.of_entries (hops : ∀ i, i < m.instrTable.size → ∀ v ∈ m.operands i, v ∈ m.entries)
    (hlt : ∀ v ∈ m.entries, ∀ u ∈ m.uses v, u < m.instrTable.size)
    (h : ∀ v ∈ m.entries, ∀ i, i < m.instrTable.size →
      (m.uses v).count i = (m.operands i).count v) : m.Mirror := by
  intro v _ i
  by_cases hi : i < m.instrTable.size
  · by_cases hv : v ∈ m.entries
    · exact h v hv i hi
    · rw [uses_of_notMem_entries hv,count_nil,count_eq_zero.mpr fun hm => hv (hops i hi v hm)]
  · have hop : m.operands i = [] := by
      rw [operands,instr,Table.get_of_size_le _ (Nat.not_lt.mp hi)]
      rfl
    rw [hop,count_nil,count_eq_zero]
    intro hm
    by_cases hv : v ∈ m.entries
    · exact hi (hlt v hv i hm)
    · rw [uses_of_notMem_entries hv] at hm
      cases hm

theorem Mirror.empty (name : String) : (Module.empty name).Mirror :=
  .of_entries (by simp [Module.empty,Table.empty,Table.size])
  (by simp [Module.empty,entries,Table.empty,Table.size])
    (by simp [Module.empty,Table.empty,Table.size])

section
variable (m : Module)

theorem code_foldl_addUse (vs : List Operand) (i : InstrId) :
    (vs.foldl (fun m v => m.addUse v i) m).code = m.code := by
  induction vs generalizing m with
  | nil => rfl
  | cons v vs ih => rw [foldl_cons,ih,code_addUse]

theorem count_uses_foldl_addUse (vs : List Operand) (i : InstrId) (hw : w ≠ .hole) (u : InstrId) :
    ((vs.foldl (fun m v => m.addUse v i) m).uses w).count u = (m.uses w).count u + if i = u
      then vs.count w else 0 := by
  induction vs generalizing m with
  | nil => simp
  | cons v vs ih =>
    rw [foldl_cons,ih,count_uses_addUse _ _ _ hw,count_cons]
    grind

theorem code_foldl_removeUse (vs : List Operand) (i : InstrId) :
    (vs.foldl (fun m v => m.removeUse v i) m).code = m.code := by
  induction vs generalizing m with
  | nil => rfl
  | cons v vs ih => rw [foldl_cons,ih,code_removeUse]

theorem count_uses_foldl_removeUse (vs : List Operand) (i : InstrId) (hw : w ≠ .hole)
    (u : InstrId) :
    ((vs.foldl (fun m v => m.removeUse v i) m).uses w).count u =
      (m.uses w).count u - if i = u then vs.count w else 0 := by
  induction vs generalizing m with
  | nil => simp
  | cons v vs ih =>
    rw [foldl_cons,ih,count_uses_removeUse _ _ _ hw,count_cons]
    by_cases hu : i = u <;> by_cases hv : v = w <;> simp [hu,hv]
    omega

theorem code_addLiteral (c : Constant) :
    (m.addLiteral c).1.code = m.code.setLiteral m.literalTable.size c := by
  refine Code.ext rfl rfl rfl rfl rfl rfl (funext fun l => ?_)
  simp only [addLiteral,code,literal,Code.setLiteral,Table.get_push]
  split <;> rfl

theorem Mirror.addLiteral {m : Module} (h : m.Mirror) (c : Constant) :
    (m.addLiteral c).1.Mirror := by
  intro v hv i
  have hu : (m.addLiteral c).1.uses v = m.uses v := by
    cases v with
    | literal l =>
      simp only [uses,Module.addLiteral,literal,Table.get_push]
      split
      · rename_i hl
        subst hl
        simp [Table.get,Table.size]
        rfl
      · rfl
    | _ => rfl
  rw [hu]
  exact h v hv i

theorem code_addIncoming (phi : InstrId) (v : Operand) (p : BlockId) :
    (m.addIncoming phi v p).code = m.code.setOperands phi (m.operands phi ++ [v,.block p]) := by
  have h := code_modifyInstr m phi (fun x => { x with operands := x.operands ++ [v,.block p] })
    (fun x => { x with operands := x.operands ++ [v,.block p] }) fun _ => rfl
  rw [addIncoming,code_addUse,code_addUse,h]
  rfl

theorem operands_setOperands_of_code {m : Module} {l : List Operand}
    (h : m'.code = m.code.setOperands i l) (u : InstrId) :
    m'.operands u = if i = u then l else m.operands u := by
  rw [operands_eq_code,h]
  exact apply_ite Instr.operands _ _ _

theorem Mirror.addIncoming {m : Module} (h : m.Mirror) (phi : InstrId) (v : Operand) (p : BlockId) :
    (m.addIncoming phi v p).Mirror := by
  intro w hw u
  have hu := uses_modifyInstr m phi (fun x => { x with operands := x.operands ++ [v,.block p] })
    (fun _ => rfl) w
  have hs : ((m.addIncoming phi v p).uses w).count u =
    (m.uses w).count u + (if v = w ∧ phi = u then 1 else 0) +
      if .block p = w ∧ phi = u then 1 else 0 := by
    rw [Module.addIncoming,count_uses_addUse _ _ _ hw,count_uses_addUse _ _ _ hw,hu]
  rw [hs,operands_setOperands_of_code (code_addIncoming m phi v p),h w hw u]
  grind

theorem dropPair_of_none (h : (pairs vs).find? (fun x => x.2 = .block p) = none) :
    dropPair p vs = vs := by
  fun_induction dropPair p vs with
  | case1 v rest => simp [pairs] at h
  | case2 v b rest hb ih =>
    rw [pairs,find?_cons_of_neg (by simpa using hb)] at h
    rw [ih h]
  | case3 => rfl

theorem count_dropPair
    (h : ((pairs vs).find? fun x => x.2 = .block p).map (·.1) = some v) (w : Operand) :
    vs.count w = (dropPair p vs).count w + (if v = w then 1 else 0) + if .block p = w then 1
      else 0 := by
  fun_induction dropPair p vs with
  | case1 u rest =>
    obtain rfl : u = v := by simpa [pairs] using h
    simp [count_cons]
    omega
  | case2 u b rest hb ih =>
    rw [pairs,find?_cons_of_neg (by simpa using hb)] at h
    simp only [count_cons,ih h]
    omega
  | case3 vs hvs =>
    rw [pairs] at h
    · cases h
    · exact hvs

theorem code_removeIncoming (phi : InstrId) (p : BlockId) :
    (m.removeIncoming phi p).code = m.code.setOperands phi (dropPair p (m.operands phi)) := by
  rw [removeIncoming]
  cases hv : m.incomingFor? phi p with
  | none =>
    rw [dropPair_of_none (Option.map_eq_none_iff.mp hv)]
    exact (Code.setOperands_self m.code phi).symm
  | some v =>
    have h := code_modifyInstr ((m.removeUse v phi).removeUse (.block p) phi) phi
      (fun x => { x with operands := dropPair p x.operands })
        (fun x => { x with operands := dropPair p x.operands }) fun _ => rfl
    dsimp only
    rw [h,code_removeUse,code_removeUse]
    rfl

theorem Mirror.removeIncoming {m : Module} (h : m.Mirror) (phi : InstrId) (p : BlockId) :
    (m.removeIncoming phi p).Mirror := by
  intro w hw u
  rw [operands_setOperands_of_code (code_removeIncoming m phi p),Module.removeIncoming]
  cases hv : m.incomingFor? phi p with
  | none =>
    rw [dropPair_of_none (Option.map_eq_none_iff.mp hv)]
    refine (h w hw u).trans ?_
    split
    · rename_i hp
      rw [hp]
    · rfl
  | some v =>
    have hu := uses_modifyInstr ((m.removeUse v phi).removeUse (.block p) phi) phi
      (fun x => { x with operands := dropPair p x.operands }) (fun _ => rfl) w
    dsimp only
    rw [hu,count_uses_removeUse _ _ _ hw,count_uses_removeUse _ _ _ hw,h w hw u]
    by_cases hp : phi = u
    · subst hp
      have := count_dropPair hv w
      grind
    · simp [hp]

/-- The module with one more instruction counted, if it has a value. -/
def counted (f : FuncId) (type : Ty) : Module :=
  if type.isVoid then m else m.modifyFunc f fun x => { x with numbered := x.numbered + 1 }

/-- What a new instruction looks like before it is put into a block. -/
def newInstr (f : FuncId) (op : Opcode) (type : Ty) (object : Option Ty)
    (vs : List Operand) : Instr :=
  ⟨op,type,if type.isVoid then none else some (m.func f).numbered,object,vs,none,[]⟩

theorem code_counted (f : FuncId) (type : Ty) : (m.counted f type).code =
    if type.isVoid then m.code else m.code.modifyFunc f fun x =>
      { x with numbered := x.numbered + 1 } := by
  unfold counted
  split
  · rfl
  · exact code_modifyFunc m f (fun x => { x with numbered := x.numbered + 1 })
      (fun x => { x with numbered := x.numbered + 1 }) (fun _ => rfl) fun _ => rfl

theorem uses_counted (f : FuncId) (type : Ty) (v : Operand) :
    (m.counted f type).uses v = m.uses v := by
  unfold counted
  split
  · rfl
  · cases v with
    | block b =>
      simp only [uses,block,func_modifyFunc]
      split
      · rename_i hf
        rw [hf]
      · rfl
    | arg g n =>
      simp only [uses,func_modifyFunc]
      split
      · rename_i hf
        rw [hf]
      · rfl
    | func g =>
      simp only [uses,func_modifyFunc]
      split
      · rename_i hf
        rw [hf]
      · rfl
    | _ => rfl

theorem instrTable_counted (f : FuncId) (type : Ty) :
    (m.counted f type).instrTable = m.instrTable := by
  unfold counted
  split <;> rfl

theorem makeInstr_fst (f : FuncId) (op : Opcode) (type : Ty) (object : Option Ty)
    (vs : List Operand) :
    (m.makeInstr f op type object vs).1 = vs.foldl (fun n v => n.addUse v m.instrTable.size)
      { m.counted f type with
        instrTable := m.instrTable.push (m.newInstr f op type object vs) } := by
  simp only [makeInstr,counted,newInstr]
  split <;> rfl

theorem code_pushInstr (x : Instr) :
    ({ m with instrTable := m.instrTable.push x } : Module).code =
      m.code.setInstr m.instrTable.size x.bare := by
  refine Code.ext rfl rfl rfl (funext fun j => ?_) rfl rfl rfl
  simp only [code,instr,Code.setInstr,Table.get_push]
  split <;> rfl

theorem code_makeInstr (f : FuncId) (op : Opcode) (type : Ty) (object : Option Ty)
    (vs : List Operand) :
    (m.makeInstr f op type object vs).1.code =
      (m.counted f type).code.setInstr m.instrTable.size (m.newInstr f op type object vs) := by
  have h := code_pushInstr (m.counted f type) (m.newInstr f op type object vs)
  rw [instrTable_counted] at h
  rw [makeInstr_fst,code_foldl_addUse,h]
  rfl

theorem Mirror.makeInstr {m : Module} (h : m.Mirror) (f : FuncId) (op : Opcode) (type : Ty)
    (object : Option Ty) (vs : List Operand) : (m.makeInstr f op type object vs).1.Mirror := by
  intro w hw u
  have hu : ({ m.counted f type with
      instrTable := m.instrTable.push (m.newInstr f op type object vs) } : Module).uses w =
      m.uses w := by
    rw [← uses_counted m f type w]
    cases w with
    | instr j =>
      simp only [uses,instr,Table.get_push,instrTable_counted]
      split
      · rename_i hj
        subst hj
        rw [show m.instrTable.get m.instrTable.size = default from get_instr_size m]
        rfl
      · rfl
    | _ => rfl
  have ho : (m.makeInstr f op type object vs).1.operands u =
      if u = m.instrTable.size then vs else m.operands u := by
    rw [operands_eq_code,code_makeInstr,Code.setInstr,code_counted]
    dsimp only
    split
    · rfl
    · split <;> rfl
  rw [ho,makeInstr_fst,count_uses_foldl_addUse _ _ _ hw,hu,h w hw u]
  by_cases hs : m.instrTable.size = u
  · subst hs
    have : m.operands m.instrTable.size = [] := by rw [operands,get_instr_size]; rfl
    simp [this]
  · simp [hs,Ne.symm hs]

theorem code_insertAt (b : BlockId) (n : Nat) (i : InstrId) : (m.insertAt b n i).code =
    (m.code.modifyInstr i fun x => { x with parent := some b }).modifyBlock b
      fun x => { x with instrs := x.instrs.take n ++ i :: x.instrs.drop n } := by
  have h := code_modifyInstr m i (fun x => { x with parent := some b })
    (fun x => { x with parent := some b }) fun _ => rfl
  rw [insertAt,code_modifyBlock _ b _
    (fun x => { x with instrs := x.instrs.take n ++ i :: x.instrs.drop n }) fun _ => rfl,h]

theorem uses_insertAt (b : BlockId) (n : Nat) (i : InstrId) (v : Operand) :
    (m.insertAt b n i).uses v = m.uses v := by
  have h := uses_modifyInstr m i (fun x => { x with parent := some b }) (fun _ => rfl) v
  have h' := uses_modifyBlock (m.modifyInstr i fun x => { x with parent := some b }) b
    (fun x => { x with instrs := x.instrs.take n ++ i :: x.instrs.drop n }) (fun _ => rfl) v
  rw [insertAt,h',h]

theorem Mirror.insertAt {m : Module} (h : m.Mirror) (b : BlockId) (n : Nat) (i : InstrId) :
    (m.insertAt b n i).Mirror := by
  intro v hv u
  have ho : (m.insertAt b n i).operands u = m.operands u := by
    rw [operands_eq_code,code_insertAt]
    simp only [Code.modifyBlock,Code.modifyInstr]
    split
    · rename_i hi
      rw [hi]
      rfl
    · rfl
  rw [uses_insertAt,ho]
  exact h v hv u

theorem newPhi_snd (b : BlockId) (t : Ty) : (m.newPhi b t).2 = m.instrTable.size := rfl

theorem code_newPhi (b : BlockId) (t : Ty) : (m.newPhi b t).1.code =
    (((m.counted b.func t).code.setInstr m.instrTable.size
      (m.newInstr b.func .phi t none [])).modifyInstr
      m.instrTable.size fun x => { x with parent := some b }).modifyBlock b fun x =>
        { x with instrs := x.instrs.take ((m.makeInstr b.func .phi t none []).1.phis b).length ++
          m.instrTable.size ::
                             x.instrs.drop ((m.makeInstr b.func .phi t none []).1.phis
                               b).length } := by
  rw [← code_makeInstr]
  exact code_insertAt _ b _ _

theorem size_newPhi (b : BlockId) (t : Ty) :
    (m.newPhi b t).1.instrTable.size = m.instrTable.size + 1 := by
  have h1 : (m.makeInstr b.func .phi t none []).1.instrTable.size = m.instrTable.size + 1 := by
    rw [makeInstr_fst]
    exact Table.size_push _ _
  have h2 : (m.newPhi b t).1.instrTable.size =
      ((m.makeInstr b.func .phi t none []).1.instrTable.modify m.instrTable.size
        fun x => { x with parent := some b }).size := rfl
  rw [h2,Table.size_modify,h1]
  omega

theorem op_newPhi (b : BlockId) (t : Ty) :
    ((m.newPhi b t).1.instr m.instrTable.size).op = .phi := by
  rw [op_eq_code,code_newPhi]
  simp [Code.modifyBlock,Code.modifyInstr,Code.setInstr,newInstr]

/-! Taking instructions away. -/

def dropOperands (i : InstrId) : Module :=
  ((m.operands i).foldl (fun m v => m.removeUse v i) m).modifyInstr i fun x =>
    { x with operands := [] }

theorem code_dropOperands (i : InstrId) : (m.dropOperands i).code = m.code.setOperands i [] := by
  have h := code_modifyInstr ((m.operands i).foldl (fun m v => m.removeUse v i) m) i
    (fun x => { x with operands := [] }) (fun x => { x with operands := [] }) fun _ => rfl
  rw [dropOperands,h,code_foldl_removeUse]
  rfl

theorem parent_dropOperands (i : InstrId) :
    ((m.dropOperands i).instr i).parent = (m.instr i).parent := by
  rw [parent_eq_code,code_dropOperands,Code.instr_setOperands]
  rfl

theorem Mirror.dropOperands {m : Module} (h : m.Mirror) (i : InstrId) :
    (m.dropOperands i).Mirror := by
  intro w hw u
  have hu := uses_modifyInstr ((m.operands i).foldl (fun m v => m.removeUse v i) m) i
    (fun x => { x with operands := [] }) (fun _ => rfl) w
  rw [operands_setOperands_of_code (code_dropOperands m i),Module.dropOperands,hu,
    count_uses_foldl_removeUse _ _ _ hw,h w hw u]
  by_cases hi : i = u
  · subst hi
    simp
  · simp [hi]

theorem code_remove (hi : i ∈ (m.block b).instrs) : (m.remove b i).code =
    (m.code.modifyBlock b fun x => { x with instrs := x.instrs.erase i }).modifyInstr i
      fun x => { x with parent := none } := by
  have h := code_modifyBlock m b (fun x => { x with instrs := x.instrs.erase i })
    (fun x => { x with instrs := x.instrs.erase i }) fun _ => rfl
  have h' := code_modifyInstr (m.modifyBlock b fun x => { x with instrs := x.instrs.erase i }) i
    (fun x => { x with parent := none }) (fun x => { x with parent := none }) fun _ => rfl
  rw [remove,if_pos hi,h',h]

theorem uses_remove (b : BlockId) (i : InstrId) (v : Operand) :
    (m.remove b i).uses v = m.uses v := by
  have h := uses_modifyBlock m b (fun x => { x with instrs := x.instrs.erase i }) (fun _ => rfl) v
  have h' := uses_modifyInstr (m.modifyBlock b fun x => { x with instrs := x.instrs.erase i }) i
    (fun x => { x with parent := none }) (fun _ => rfl) v
  rw [remove]
  split
  · rw [h',h]
  · rfl

theorem operands_remove (b : BlockId) (i u : InstrId) :
    (m.remove b i).operands u = m.operands u := by
  by_cases hi : i ∈ (m.block b).instrs
  · rw [operands_eq_code,code_remove m hi]
    simp only [Code.modifyInstr]
    split
    · rename_i hi
      rw [hi]
      rfl
    · rfl
  · rw [remove,if_neg hi]

theorem Mirror.remove {m : Module} (h : m.Mirror) (b : BlockId) (i : InstrId) :
    (m.remove b i).Mirror := by
  intro v hv u
  rw [uses_remove,operands_remove]
  exact h v hv u

theorem erase_eq (hop : (m.instr i).op ≠ .br) : m.erase i =
    match (m.instr i).parent with
    | some b => (m.dropOperands i).remove b i
    | none => m.dropOperands i := by
  have ht : m.targets i = [] := by
    unfold targets
    split
    · rename_i h
      exact absurd h hop
    · rfl
  have hp := parent_dropOperands m i
  unfold dropOperands at hp ⊢
  cases hpar : (m.instr i).parent with
  | none => simp only [erase,hpar,hp]
  | some b => simp only [erase,hpar,hp,ht,foldl_nil]

theorem code_erase (hop : (m.instr i).op ≠ .br) (hp : (m.instr i).parent = some b)
    (hi : i ∈ (m.block b).instrs) : (m.erase i).code =
    ((m.code.setOperands i []).modifyBlock b fun x =>
      { x with instrs := x.instrs.erase i }).modifyInstr i
      fun x => { x with parent := none } := by
  have hb : (m.dropOperands i).code.block b = m.code.block b := by rw [code_dropOperands]; rfl
  have hi' : i ∈ ((m.dropOperands i).block b).instrs := by
    rw [instrs_eq_code,hb]
    exact hi
  have he : m.erase i = (m.dropOperands i).remove b i := by rw [erase_eq m hop,hp]
  rw [he,code_remove _ hi',code_dropOperands]

theorem Mirror.erase {m : Module} (h : m.Mirror) (hop : (m.instr i).op ≠ .br) :
    (m.erase i).Mirror := by
  rw [erase_eq m hop]
  cases (m.instr i).parent with
  | none => exact h.dropOperands i
  | some b => exact (h.dropOperands i).remove b i

end

end Module
end CMinusF
