import CMinusF.Proofs.Graph.UseLists
import CMinusF.Proofs.Hoisting.Preheader

/-! A block on an edge: its predecessor branches to it, it branches on, and the phis at the other
end take from it what they took from the predecessor. -/
namespace CMinusF
open CMinusF.Module CMinusF.Hoisting List

/-- Values that come from one block come from another instead. -/
def relabel (old new : BlockId) (ps : List (Operand × BlockId)) : List (Operand × BlockId) :=
  ps.map fun x => (x.1,if x.2 = old then new else x.2)

namespace Module
section
variable {m : Module} {old new : BlockId} {p : InstrId}

theorem mapIdx_pairs (old new : BlockId) (ps : List (Operand × BlockId)) :
    ((arms ps).mapIdx fun k v => if k % 2 = 1 ∧ v = .block old then .block new else v) =
      arms (relabel old new ps) := by
  induction ps with
  | nil => rfl
  | cons x ps ih =>
    have hshift : (fun (k : Nat) (v : Operand) => if (k + 1 + 1) % 2 = 1 ∧
      v = .block old then Operand.block new else v) =
        fun k v => if k % 2 = 1 ∧ v = .block old then .block new else v := by
      funext k v
      simp only [Nat.add_assoc,Nat.add_mod_right]
    simp only [flatMap_cons,cons_append,nil_append,mapIdx_cons,hshift,ih,relabel]
    by_cases hx : x.2 = old <;> simp [hx]

theorem code_renameSlots (m : Module) (old new : BlockId) (p : InstrId) {n : Nat}
    (hn : n ≤ (m.operands p).length) :
    ((List.range n).foldl (fun m k => if k % 2 = 1 ∧ m.operand p k = .block old
      then m.setOperand p k (.block new) else m) m).code =
      m.code.setOperands p ((m.operands p).mapIdx fun k v => if k < n ∧ k % 2 = 1 ∧
        v = .block old then .block new else v) := by
  induction n with
  | zero =>
    have hid : ((m.operands p).mapIdx fun k v => if k < 0 ∧ k % 2 = 1 ∧
      v = .block old then .block new else v) = m.operands p :=
      ext_getElem? fun j => by simp
    rw [hid]
    exact (Code.setOperands_self _ _).symm
  | succ n ih =>
    have ih := ih (by omega)
    rw [range_succ,foldl_append,foldl_cons,foldl_nil]
    generalize (range n).foldl _ m = k at ih ⊢
    have ho := operands_setOperands_of_code ih p
    rw [if_pos rfl] at ho
    have hslot : k.operand p n = m.operand p n := by
      rw [operand,operand,ho,getD_eq_getElem?_getD,getD_eq_getElem?_getD,getElem?_mapIdx]
      cases (m.operands p)[n]? <;> simp
    have hget : (m.operands p)[n]? = some (m.operand p n) := by
      rw [operand,getD_eq_getElem?_getD,getElem?_eq_getElem hn]
      rfl
    rw [hslot]
    split
    · rename_i h
      rw [code_setOperand,ih,Code.setOperands_setOperands,ho]
      refine congrArg _ (ext_getElem? fun j => ?_)
      rw [getElem?_set,getElem?_mapIdx,getElem?_mapIdx]
      by_cases hj : n = j
      · subst hj
        rw [if_pos rfl,length_mapIdx,if_pos (Nat.lt_of_succ_le hn),hget]
        simp [h]
      · rw [if_neg hj]
        have hlt : j < n + 1 ↔ j < n := by omega
        simp only [hlt]
    · rename_i h
      rw [ih]
      refine congrArg _ (ext_getElem? fun j => ?_)
      rw [getElem?_mapIdx,getElem?_mapIdx]
      by_cases hj : n = j
      · subst hj
        simp [hget,h]
      · have hlt : j < n + 1 ↔ j < n := by omega
        simp only [hlt]

theorem code_renameIncoming {ps : List (Operand × BlockId)} (ho : m.operands p = arms ps) :
    (m.renameIncoming old new p).code = m.code.setOperands p (arms (relabel old new ps)) := by
  rw [renameIncoming,code_renameSlots m old new p (Nat.le_refl _),← mapIdx_pairs,← ho]
  refine congrArg _ (ext_getElem? fun j => ?_)
  rw [getElem?_mapIdx,getElem?_mapIdx]
  by_cases hj : j < (m.operands p).length
  · simp [hj]
  · rw [getElem?_eq_none (by omega)]
    rfl

end
end Module

theorem SameFlow.setOperand (m : Module) {i : InstrId} (hi : (m.instr i).op.isTerminator = false)
    (k : Nat) (v : Operand) :
    SameFlow m (m.setOperand i k v) := by
  have hop : ((m.removeUse (m.operand i k) i).instr i).op.isTerminator = false := by
    rw [op_eq_code,code_removeUse]
    exact hi
  exact ((modifyUses m (m.operand i k) (·.erase i)).trans
    (modifyInstr _ i (fun x => { x with operands := x.operands.set k v }) hop
    fun _ => rfl)).trans (modifyUses _ v (· ++ [i]))

theorem SameFlow.renameIncoming (m : Module) {p : InstrId}
    (hp : (m.instr p).op.isTerminator = false) (old new : BlockId) :
    SameFlow m (m.renameIncoming old new p) := by
  refine foldl m fun n hn k _ => ?_
  split
  · exact setOperand n (hn.plain p hp) _ _
  · exact refl n

theorem relabel_relabel (old new : BlockId) (ps : List (Operand × BlockId)) :
    relabel old new (relabel old new ps) = relabel old new ps := by
  simp only [relabel,map_map]
  refine map_congr_left fun x _ => ?_
  by_cases hx : x.2 = old <;> simp [hx]

structure Relabelled (m n : Module) (is : List InstrId) (old new : BlockId) : Prop where
  renamed : ∀ i ∈ is, ∀ ps, m.operands i = arms ps →
    n.code.instr i = { m.code.instr i with operands := arms (relabel old new ps) }
  kept : ∀ i ∉ is, n.code.instr i = m.code.instr i
  rest : { n.code with instr := m.code.instr } = m.code
  flow : SameFlow m n
  mirror : m.Mirror → n.Mirror

theorem relabelled_foldl (old new : BlockId) (is : List InstrId) (m : Module)
    (his : ∀ i ∈ is, (m.instr i).op.isTerminator = false ∧ ∃ ps, m.operands i = arms ps) :
    Relabelled m (is.foldl (fun m i => m.renameIncoming old new i) m) is old new := by
  induction is generalizing m with
  | nil => exact ⟨fun i hi => (not_mem_nil hi).elim,fun _ _ => rfl,rfl,.refl m,id⟩
  | cons i is ih =>
    obtain ⟨hterm,ps,hps⟩ := his i mem_cons_self
    have hc : (m.renameIncoming old new i).code = _ := code_renameIncoming hps
    have hflow := SameFlow.renameIncoming m hterm old new
    have hops := operands_setOperands_of_code hc
    rw [foldl_cons]
    have hinstr : ∀ j, (m.renameIncoming old new i).code.instr j = if i = j then
        { m.code.instr i with operands := arms (relabel old new ps) } else m.code.instr j :=
      fun j => by rw [hc]; rfl
    have hrest : { (m.renameIncoming old new i).code with instr := m.code.instr } = m.code := by
      rw [hc]
      rfl
    have hmirror : m.Mirror → (m.renameIncoming old new i).Mirror :=
      fun h => h.renameIncoming old new i
    generalize m.renameIncoming old new i = k at hc hflow hops hinstr hrest hmirror ⊢
    have h := ih k fun j hj => by
      obtain ⟨htj,qs,hqs⟩ := his j (mem_cons_of_mem _ hj)
      refine ⟨hflow.plain j htj,?_⟩
      grind
    refine ⟨fun j hj qs hqs => ?_,fun j hj => ?_,?_,hflow.trans h.flow,
      fun hm => h.mirror (hmirror hm)⟩
    · have hk : k.operands j = arms (if i = j then relabel old new qs else qs) := by
        rw [hops]
        split
        · rename_i heq
          subst heq
          rw [← operands_setOperands_of_code (code_renameIncoming hqs) i |>.trans (if_pos rfl),
            operands_setOperands_of_code (code_renameIncoming hps) i,if_pos rfl]
        · exact hqs
      by_cases hjs : j ∈ is
      · rw [h.renamed j hjs _ hk,hinstr]
        split
        · rename_i heq
          subst heq
          rw [relabel_relabel]
        · rfl
      · obtain rfl : j = i := (mem_cons.mp hj).resolve_right hjs
        rw [h.kept j hjs]
        grind
    · rw [mem_cons,not_or] at hj
      obtain ⟨hne,hjs⟩ := hj
      rw [h.kept j hjs,hinstr,if_neg (Ne.symm hne)]
    · have := h.rest
      rw [← hrest,← this]

/-- What is seen of a module after `b` has been put on the edge from `p` to `s` in a function with
the entry `e`. -/
structure Bridged (m n : Module) (f : FuncId) (e p s b : BlockId) :
    Prop extends SameContext m n where
  flow : ControlFlow m f e
  after : ControlFlow n f (if e = s then b else e)
  verified : m.verify f = .ok ()
  target : s ∈ (m.func f).layout
  source : p ∈ m.preds s
  fresh : b = ⟨f,(m.func f).blocks.size⟩
  layout : ∀ g, (n.func g).layout = if g = f then front s b (m.func f).layout else (m.func g).layout
  signature : ∀ g, (n.func g).name = (m.func g).name ∧ (n.func g).params = (m.func g).params
  instrs : ∀ d, (n.block d).instrs = if d = b then [m.instrTable.size] else (m.block d).instrs
  branch : n.code.instr m.instrTable.size = ⟨.br,.void,none,none,[.block s],some b,[]⟩
  moved : ∀ t, m.Ends p t → n.code.instr t =
    { m.code.instr t with operands := (m.operands t).map (Operand.replace (.block s) (.block b)) }
  renamed : ∀ i ∈ m.phis s, ∀ ps, m.operands i = arms ps →
    n.code.instr i = { m.code.instr i with operands := arms (relabel p b ps) }
  kept : ∀ i, i ≠ m.instrTable.size → ¬m.Ends p i → i ∉ m.phis s → n.code.instr i = m.code.instr i
  succs : ∀ d, n.succs d = if d = b then [s] else if d = p then addTo ((m.succs p).filter (· ≠ s)) b
    else m.succs d
  preds : ∀ d, n.preds d = if d = b then [p] else if d = s then (m.preds s).filter (· ≠ p) ++ [b]
    else m.preds d
  mirror : m.Mirror → n.Mirror

section
variable {m n : Module} {f : FuncId} {e p s b d : BlockId} {i t : InstrId}

/-- What stands in a block that has been checked is not the next number. -/
theorem ne_size_of_verify (hv : m.verify f = .ok ()) (hd : d ∈ (m.func f).layout)
    (hi : i ∈ (m.block d).instrs) :
    i ≠ m.instrTable.size := by
  obtain ⟨xs,ys,hs⟩ := append_of_mem hi
  exact Fronted.ne_size_of_parent ((blockChecked hv hd).instr xs i ys hs).parent

theorem pairs_of_mem_phis (hv : m.verify f = .ok ()) (hd : d ∈ (m.func f).layout)
    (hi : i ∈ m.phis d) :
    ∃ ps, m.operands i = arms ps ∧ (ps.map (·.2)).Nodup ∧
      ∀ x ∈ ps, x.2 ∈ m.preds d := by
  obtain ⟨xs,ys,hs⟩ := append_of_mem (phis_subset m d hi)
  exact ((blockChecked hv hd).instr xs i ys hs).pairs (op_of_mem_phis hi)

theorem exists_bridged (hC : ControlFlow m f e) (hv : m.verify f = .ok ())
    (hs : s ∈ (m.func f).layout) (hp : p ∈ m.preds s) :
    ∃ n b, m.splitEdge f p s = (n,none) ∧ Bridged m n f e p s b := by
  have hsub : [p].Sublist (m.preds s) := singleton_sublist.mpr hp
  obtain ⟨j,hj,hF⟩ :=
    exists_fronted hC hs hsub ((m.block p).name ++ "_to_" ++ (m.block s).name ++ "_")
  have hCF := hF.controlFlow hC hs hsub
  have hsplit : m.splitEdge f p s = (((j.br ⟨f,(m.func f).blocks.size⟩ s).1.phis s).foldl
      (fun n i => n.renameIncoming p ⟨f,(m.func f).blocks.size⟩ i)
        (j.br ⟨f,(m.func f).blocks.size⟩ s).1,none) := by
    unfold splitEdge
    dsimp only
    have hb : (m.addBlockBefore f ((m.block p).name ++ "_to_" ++ (m.block s).name ++ "_") s).2 =
      ⟨f,(m.func f).blocks.size⟩ := rfl
    generalize m.addBlockBefore f ((m.block p).name ++ "_to_" ++ (m.block s).name ++ "_") s =
      r at hj hb ⊢
    obtain ⟨k,b⟩ := r
    obtain rfl := hb
    unfold redirectAll at hj
    split at hj
    · rename_i hr
      cases hj
      rw [hr]
    · cases hj
  generalize hb : (⟨f,(m.func f).blocks.size⟩ : BlockId) = b at hF hCF hsplit
  generalize (j.br b s).1 = k at hF hCF hsplit
  have hne : s ≠ b := by
    rintro rfl
    have := hC.sized s hs
    rw [← hb] at this
    exact Nat.lt_irrefl _ this
  have hphis : k.phis s = m.phis s := phis_congr (by rw [hF.instrs,if_neg hne]) fun i hi =>
    (hF.instr_old (ne_size_of_verify hv hs hi)).op
  rw [hphis] at hsplit
  have hphi : ∀ i ∈ m.phis s, i ≠ m.instrTable.size ∧ ∀ d ∈ [p], ¬m.Ends d i := by
    refine fun i hi => ⟨ne_size_of_verify hv hs (phis_subset m s hi),fun d _ hd => ?_⟩
    have := hd.leaves
    rw [op_of_mem_phis hi] at this
    cases this
  have hcode : ∀ i ∈ m.phis s, k.code.instr i = m.code.instr i :=
    fun i hi => hF.kept i (hphi i hi).1 (hphi i hi).2
  have hR := relabelled_foldl p b (m.phis s) k fun i hi => by
    obtain ⟨ps,hps,_⟩ := pairs_of_mem_phis hv hs hi
    refine ⟨?_,ps,?_⟩
    · rw [op_eq_code,hcode i hi,← op_eq_code,op_of_mem_phis hi]
      rfl
    · rw [operands_eq_code,hcode i hi,← operands_eq_code,hps]
  refine ⟨_,b,hsplit,?_⟩
  generalize (m.phis s).foldl (fun n i => n.renameIncoming p b i) k = n at hR
  have hblock : n.code.block = k.code.block := by
    have := congrArg Code.block hR.rest
    exact this
  have hcontext := congrArg Code.context hR.rest
  refine ⟨⟨hcontext.trans hF.context⟩,hC,hR.flow.controlFlow hCF,hv,hs,hp,hF.fresh,fun g => ?_,
    fun g => ?_,fun d => ?_,?_,fun t ht => ?_,fun i hi ps hps => ?_,
    fun i hi hend hphi' => ?_,fun d => ?_,fun d => ?_,fun hm => hR.mirror (hF.mirror hm)⟩
  · rw [hR.flow.layout,hF.layout]
  · have hfn := congrFun (congrArg Code.func hR.rest) g
    have h1 := congrArg Func.name hfn
    have h2 := congrArg Func.params hfn
    obtain ⟨h3,-,h4⟩ := hF.signature g
    exact ⟨h1.trans h3,h2.trans h4⟩
  · rw [instrs_eq_code,hblock,← instrs_eq_code,hF.instrs]
  · rw [hR.kept _ fun hi => (hphi _ hi).1 rfl,hF.branch]
  · have htp : t ∉ m.phis s := fun hi => (hphi t hi).2 p mem_cons_self ht
    rw [hR.kept t htp,hF.moved p mem_cons_self t ht]
  · rw [hR.renamed i hi ps (by rw [operands_eq_code,hcode i hi,← operands_eq_code,hps]),hcode i hi]
  · rw [hR.kept i hphi',hF.kept i hi fun d hd => by rwa [mem_singleton.mp hd]]
  · rw [hR.flow.succs,hF.succs]
    simp_all
  · rw [hR.flow.preds,hF.preds]
    simp only [mem_singleton]

end
end CMinusF
