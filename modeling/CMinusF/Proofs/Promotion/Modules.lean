import CMinusF.Proofs.Machine.Calls
import CMinusF.Proofs.Promotion.Whole

/-! Promoting the locals of any functions of a module, one function after the other. -/
namespace CMinusF
open Run

def Module.promoted (m : Module) (fs : List FuncId) : Module :=
  fs.foldl (fun m f => (Promotion.run m f (m.dominators f)).module) m

theorem PromotesAll.preserves {m m' : Module} (h : PromotesAll m m') {f : FuncId}
    (hf : f ∈ m.funcs) :
    Preserves m m' f := by
  have hn := h.name f hf
  have hd' : (m'.func f).isDeclaration = (m.func f).isDeclaration :=
    Module.AllReady.isDeclaration_eq (h.layout f hf)
  cases hd : (m.func f).isDeclaration with
  | true =>
    refine ⟨fun {ι w w' args args' k w1 x} hs he => ?_,fun _ _ => ⟨_,_,_,.builtin hd⟩⟩
    obtain ⟨hw,hx,hc,hev,_⟩ :=
      builtin_rel (Match.countCall_rel hs.world (m.func f).name) (by simp only [countCall,hs.calls])
      (m.func f).name (hs.args 0)
    obtain ⟨rfl,rfl,rfl⟩ := he.unique (.builtin hd)
    exact ⟨0,Nat.le_refl _,ι,_,_,hn ▸ .builtin (hd'.trans hd),hw,hc,hev,hx⟩
  | false =>
    obtain ⟨e,P,hF,hP⟩ := h.defined f hf hd
    have start : ∀ {ι w w' args args'}, StartRel ι w w' args args' →
        let s : Pair := ⟨m,m',f,e,P,w.globals,w'.globals⟩
        s.Ok ∧ ∃ pre V obj, Match s ⟨w.heap,w'.heap,ι⟩ ι (countCall w (m.func f).name)
          (activation m w.globals f args)
          (countCall w' (m'.func f).name) (activation m' w'.globals f args') pre V obj := by
      intro ι w w' args args' hs s
      have hok : s.Ok := ⟨hF,hP⟩
      rw [hn]
      exact ⟨hok,_,_,_,Match.start hok (Match.countCall_rel hs.world _)
        (by simp only [countCall,hs.calls]) rfl rfl hs.args⟩
    constructor
    · intro ι w w' args args' k w1 x hs he
      obtain ⟨hok,_,_,_,hm⟩ := start hs
      cases he with
      | builtin hd' => exact absurd (hd'.symm.trans hd) Bool.noConfusion
      | code _ he =>
        obtain ⟨k',hk',ι1,w1',x',he',hw,hc,hev,hx⟩ := h.ends_after he rfl rfl hok hm
        exact ⟨k',hk',ι1,w1',x',.code (hd'.trans hd) he',hw,hc,hev,hx⟩
    · intro ι w w' args args' k' w1' x' hs he
      obtain ⟨hok,_,_,_,hm⟩ := start hs
      cases he with
      | builtin hdd => exact absurd (hdd.symm.trans (hd'.trans hd)) Bool.noConfusion
      | code _ he =>
        obtain ⟨k,w1,x,he'⟩ := h.ends_before he rfl rfl hok hm
        exact ⟨k,w1,x,.code hd he'⟩

namespace Module.AllReady
variable {m : Module} {fs : List FuncId} {f : FuncId}

theorem promoted (h : m.AllReady) (hfs : ∀ f ∈ fs, f ∈ m.funcs) :
    (m.promoted fs).AllReady ∧ (m.promoted fs).funcs = m.funcs ∧
      ∀ f ∈ m.funcs, Preserves m (m.promoted fs) f ∧
        ((m.promoted fs).func f).name = (m.func f).name ∧
        ((m.promoted fs).func f).params = (m.func f).params := by
  induction fs generalizing m with
  | nil => exact ⟨h,rfl,fun f hf => ⟨h.promotesAll_self.preserves hf,rfl,rfl⟩⟩
  | cons g fs ih =>
    obtain ⟨hall,hr,_,hfuncs⟩ := h.run (hfs g (List.mem_cons_self ..))
    obtain ⟨h1,h2,h3⟩ := ih hr fun f hf => hfuncs ▸ hfs f (List.mem_cons_of_mem _ hf)
    refine ⟨h1,h2.trans hfuncs,fun f hf => ?_⟩
    obtain ⟨hp,hn,ha⟩ := h3 f (hfuncs ▸ hf)
    exact ⟨(hall.preserves hf).trans hp,hn.trans (hall.name f hf),ha.trans (hall.params f hf)⟩

end Module.AllReady
end CMinusF
