import CMinusF.Proofs.Flow.ImmediateDominators
import CMinusF.Proofs.Flow.LoopForest
import Mathlib.Data.List.Nodup

/-! The loops of a function as a forest: who is a member, which loops are disjoint and which nested,
and the order in which all of them are listed, each after those inside it. -/
namespace CMinusF
open CMinusF.Module List

/-! Members of a loop by trails that stay away from the header. -/

section
variable {m : Module} {e h b c p : BlockId} {bs : List BlockId}

theorem Module.Trail.prepend (ht : m.Trail c p bs) (hc : c ∈ m.succs b) :
    ∃ bs', m.Trail b p bs' ∧ ∀ x ∈ bs', x = b ∨ x ∈ bs := by
  obtain ⟨ds,hd,hsub⟩ := (Trail.start.step hc).append ht
  refine ⟨ds,hd,fun x hx => ?_⟩
  rcases hsub x hx with hx | hx
  · rcases mem_pair.mp hx with rfl | rfl
    · exact .inr ht.mem_start
    · exact .inl rfl
  · exact .inr hx

/-- Going back along a trail that does not pass the header one stays in the loop. -/
theorem Module.InLoop.of_trail (hp : m.InLoop e h p) (ht : m.Trail b p bs) (hh : h ∉ bs)
    (hb : m.Reaches e b) :
    m.InLoop e h b := by
  induction ht with
  | start => exact hp
  | @step x p xs ht hs ih =>
    obtain ⟨hne,hh⟩ := not_or.mp fun hm => hh (mem_cons.mpr hm)
    exact ih (hp.pred (Ne.symm hne) (hb.trans ⟨xs,ht⟩) hs) hh

/-- A block that gets to a latch without passing the header. -/
def Module.Returns (m : Module) (e h b : BlockId) : Prop :=
  m.Reaches e b ∧ ∃ p bs, m.Latch e h p ∧ m.Trail b p bs ∧ h ∉ bs

theorem Module.inLoop_iff : m.InLoop e h b ↔ b = h ∨ m.Returns e h b := by
  constructor
  · intro hb
    induction hb with
    | header => exact .inl rfl
    | @latch p hp =>
      by_cases hph : p = h
      · exact .inl hph
      · exact .inr ⟨hp.reached,p,[p],hp,.start,fun hm => hph (mem_singleton.mp hm).symm⟩
    | @pred b c hb hbh hc hs ih =>
      by_cases hch : c = h
      · exact .inl hch
      obtain ⟨_,p,bs,hp,ht,hh⟩ := ih.resolve_left hbh
      obtain ⟨bs',ht',hsub⟩ := ht.prepend hs
      exact .inr ⟨hc,p,bs',hp,ht',fun hm => (hsub h hm).elim (fun heq => hch heq.symm) hh⟩
  · rintro (rfl | ⟨hb,p,bs,hp,ht,hh⟩)
    · exact .header
    · exact (InLoop.latch hp).of_trail ht hh hb

end

namespace Forest
variable {m : Module} {f : FuncId} {e : BlockId} {t : Forest} {c c' i j k n : Nat}

/-! The lists of children and of outermost loops. -/

/-- The lists of a forest say the same as the links to the parents. -/
structure Indexed (t : Forest) : Prop where
  children : ∀ n, n < t.loops.length →
    (t.loop n).children = (List.range t.loops.length).filter fun k => (t.loop k).parent = some n
  roots : t.roots = (List.range t.loops.length).filter fun k => (t.loop k).parent = none

theorem indexed_ofLoops (ls : List Loop) : (ofLoops ls).Indexed := by
  have hparent : ∀ {k}, k ∈ range ls.length → ((ofLoops ls).loop k).parent = parentOf ls k :=
      fun hk => by
    rw [loop_ofLoops (mem_range.mp hk)]
  refine ⟨fun n hn => ?_,?_⟩
  · rw [length_ofLoops] at hn ⊢
    rw [loop_ofLoops hn]
    exact filter_congr fun k hk => by rw [hparent hk]
  · rw [length_ofLoops]
    refine Eq.trans (b := (range ls.length).filter fun k => (parentOf ls k).isNone) rfl ?_
    exact filter_congr fun k hk => by rw [hparent hk]; cases parentOf ls k <;> rfl

namespace Matches

theorem mem_blocks_iff (h : t.Matches m f e) (hj : j < t.loops.length) (hne : j ≠ n) :
    (t.loop n).header ∈ (t.loop j).blocks ↔ t.Encloses m e j n := by
  rw [(h.spans j hj).blocks]
  exact ⟨fun hin => ⟨hj,hne,hin⟩,fun hen => hen.inLoop⟩

theorem not_encloses_self (_ : t.Matches m f e) : ¬t.Encloses m e n n := fun hn => hn.ne rfl

theorem asymm (h : t.Matches m f e) (hG : FlowGraph m f e) (hij : t.Encloses m e i j) :
    ¬t.Encloses m e j i :=
  fun hji => h.not_encloses_self (h.trans hG hij hji hij.lt)

theorem not_encloses_sibling (h : t.Matches m f e) (hG : FlowGraph m f e) (hc : c < t.loops.length)
    (hc' : c' < t.loops.length) (hp : (t.loop c).parent = (t.loop c').parent) :
    ¬t.Encloses m e c c' := by
  intro hcc
  cases hk : (t.loop c').parent with
  | none => exact h.outermost c' hc' hk c hcc
  | some k =>
    have hkc := (h.parent c hc k (hp.trans hk)).1
    rcases (h.parent c' hc' k hk).2 c hcc with rfl | hck
    · exact h.not_encloses_self hkc
    · exact h.asymm hG hck hkc

def Within (m : Module) (e : BlockId) (t : Forest) (c i : Nat) : Prop :=
  i < t.loops.length ∧ (i = c ∨ t.Encloses m e c i)

theorem within_sibling (h : t.Matches m f e) (hG : FlowGraph m f e) (hc : c < t.loops.length)
    (hc' : c' < t.loops.length) (hne : c ≠ c') (hp : (t.loop c).parent = (t.loop c').parent)
    (hi : Within m e t c i) : ¬Within m e t c' i := by
  have hin : ∀ {c}, Within m e t c i → m.InLoop e (t.loop c).header (t.loop i).header := by
    rintro c ⟨_,rfl | hen⟩
    · exact .header
    · exact hen.inLoop
  intro hi'
  rcases (hin hi).nested (hin hi') (h.spans i hi.1).heads.reached with hcc | hcc
  · exact h.not_encloses_sibling hG hc hc' hp ⟨hc,hne,hcc⟩
  · exact h.not_encloses_sibling hG hc' hc hp.symm ⟨hc',Ne.symm hne,hcc⟩

theorem exists_child (h : t.Matches m f e) (hG : FlowGraph m f e) (hi : i < t.loops.length)
    (hni : t.Encloses m e n i) :
    ∃ c, c < t.loops.length ∧ (t.loop c).parent = some n ∧ Within m e t c i := by
  have key : ∀ fuel i, i < t.loops.length → n ∈ t.around fuel i →
      ∃ c, c < t.loops.length ∧ (t.loop c).parent = some n ∧ Within m e t c i := by
    intro fuel
    induction fuel with
    | zero => exact fun i _ hn => absurd hn not_mem_nil
    | succ fuel ih =>
      intro i hi hn
      rw [around] at hn
      cases hp : (t.loop i).parent with
      | none => simp [hp] at hn
      | some p =>
        rw [hp] at hn
        have hpi := (h.parent i hi p hp).1
        rcases mem_cons.mp hn with rfl | hn
        · exact ⟨i,hi,hp,hi,.inl rfl⟩
        · obtain ⟨c,hc,hcn,_,rfl | hcp⟩ := ih p hpi.lt hn
          · exact ⟨_,hc,hcn,hi,.inr hpi⟩
          · exact ⟨c,hc,hcn,hi,.inr (h.trans hG hcp hpi hi)⟩
  exact key _ i hi ((h.mem_ancestors_iff hG hi).mpr hni)

theorem exists_root (h : t.Matches m f e) (hG : FlowGraph m f e) (hi : i < t.loops.length) :
    ∃ r, r < t.loops.length ∧ (t.loop r).parent = none ∧ Within m e t r i := by
  induction hn : t.outer m e i using Nat.strong_induction_on generalizing i with
  | _ n ih =>
    cases hp : (t.loop i).parent with
    | none => exact ⟨i,hi,hp,hi,.inl rfl⟩
    | some p =>
      have hpi := (h.parent i hi p hp).1
      obtain ⟨r,hr,hroot,_,rfl | hrp⟩ := ih _ (hn ▸ h.outer_parent_lt hG hi hp) hpi.lt rfl
      · exact ⟨_,hr,hroot,hi,.inr hpi⟩
      · exact ⟨r,hr,hroot,hi,.inr (h.trans hG hrp hpi hi)⟩

/-! The order of all loops. -/

/-- The loops of a list and those inside them, each once and after those inside it. -/
structure Lists (m : Module) (e : BlockId) (t : Forest) (S : Nat → Prop) (l : List Nat) : Prop where
  mem_iff : ∀ i, i ∈ l ↔ S i
  ordered : l.Pairwise fun i j => i ≠ j ∧ ¬t.Encloses m e i j

theorem lists_flatMap (h : t.Matches m f e) (hG : FlowGraph m f e) (p : Option Nat)
    {g : Nat → List Nat} (hg : ∀ c, c < t.loops.length → (t.loop c).parent = p →
      Lists m e t (Within m e t c) (g c)) :
    Lists m e t (fun i => ∃ c, c < t.loops.length ∧ (t.loop c).parent = p ∧ Within m e t c i)
      (((List.range t.loops.length).filter fun c => (t.loop c).parent = p).flatMap g) := by
  have hmem : ∀ c, c ∈ (range t.loops.length).filter (fun c => (t.loop c).parent = p) ↔
      c < t.loops.length ∧ (t.loop c).parent = p := fun c => by simp
  refine ⟨fun i => ?_,pairwise_flatMap.mpr
    ⟨fun c hc => (hg c ((hmem c).mp hc).1 ((hmem c).mp hc).2).ordered,?_⟩⟩
  · rw [mem_flatMap]
    refine exists_congr fun c => ?_
    rw [hmem,and_assoc]
    exact and_congr_right fun hc => and_congr_right fun hp => (hg c hc hp).mem_iff i
  · refine (nodup_range.filter _).imp_of_mem fun {c c'} hc hc' hne i hi j hj => ?_
    obtain ⟨hc,hp⟩ := (hmem c).mp hc
    obtain ⟨hc',hp'⟩ := (hmem c').mp hc'
    have hi := ((hg c hc hp).mem_iff i).mp hi
    have hj := ((hg c' hc' hp').mem_iff j).mp hj
    have hno : ∀ {x}, Within m e t c x → ¬Within m e t c' x := fun hx =>
      h.within_sibling hG hc hc' hne (hp.trans hp'.symm) hx
    refine ⟨?_,fun hij => ?_⟩
    · rintro rfl
      exact hno hi hj
    · -- what is inside a loop inside the first is inside the first
      refine hno ⟨hj.1,.inr ?_⟩ hj
      rcases hi.2 with rfl | hci
      · exact hij
      · exact h.trans hG hci hij hj.1

theorem lists_postorderFrom (h : t.Matches m f e) (hG : FlowGraph m f e) (ht : t.Indexed)
    (fuel : Nat) (hn : n < t.loops.length) (hfuel : t.loops.length < fuel + t.outer m e n) :
    Lists m e t (Within m e t n) (t.postorderFrom fuel n) := by
  induction fuel generalizing n with
  | zero =>
    have := t.outer_le m e n
    omega
  | succ fuel ih =>
    have hc : ∀ c, c < t.loops.length → (t.loop c).parent = some n →
      Lists m e t (Within m e t c) (t.postorderFrom fuel c) :=
      fun c hc hp => ih hc (by have := h.outer_parent_lt hG hc hp; omega)
    obtain ⟨hmem,hord⟩ := h.lists_flatMap hG (some n) hc
    rw [postorderFrom,ht.children n hn]
    have hinside : ∀ {i}, (∃ c, c < t.loops.length ∧ (t.loop c).parent = some n ∧
      Within m e t c i) →
        i < t.loops.length ∧ t.Encloses m e n i := by
      rintro i ⟨c,hc,hp,hi,rfl | hci⟩
      · exact ⟨hi,(h.parent _ hc n hp).1⟩
      · exact ⟨hi,h.trans hG (h.parent c hc n hp).1 hci hi⟩
    refine ⟨fun i => ?_,pairwise_append.mpr ⟨hord,pairwise_singleton _ _,fun i hi j hj => ?_⟩⟩
    · rw [mem_append,hmem,mem_singleton]
      constructor
      · rintro (hi | rfl)
        · exact ⟨(hinside hi).1,.inr (hinside hi).2⟩
        · exact ⟨hn,.inl rfl⟩
      · rintro ⟨hi,rfl | hni⟩
        · exact .inr rfl
        · exact .inl (h.exists_child hG hi hni)
    · obtain rfl := mem_singleton.mp hj
      obtain ⟨_,hji⟩ := hinside ((hmem i).mp hi)
      exact ⟨Ne.symm hji.ne,h.asymm hG hji⟩

theorem lists_postorder (h : t.Matches m f e) (hG : FlowGraph m f e) (ht : t.Indexed) :
    Lists m e t (· < t.loops.length) t.postorder := by
  obtain ⟨hmem,hord⟩ :=
    h.lists_flatMap hG none (g := t.postorderFrom (t.loops.length + 1)) fun c hc _ =>
    h.lists_postorderFrom hG ht _ hc (by omega)
  rw [postorder,ht.roots]
  refine ⟨fun i => (hmem i).trans ⟨fun ⟨_,_,_,hi⟩ => hi.1,h.exists_root hG⟩,hord⟩

theorem postorder_perm (h : t.Matches m f e) (hG : FlowGraph m f e) (ht : t.Indexed) :
    t.postorder.Perm (List.range t.loops.length) := by
  obtain ⟨hmem,hord⟩ := h.lists_postorder hG ht
  refine (perm_ext_iff_of_nodup (hord.imp And.left) nodup_range).mpr fun i => ?_
  rw [hmem,mem_range]

end Matches

/-! What is seen of the blocks alone. -/

/-- A loop whose blocks are blocks of another one, which has more. -/
def Inside (t : Forest) (i j : Nat) : Prop :=
  (∀ b ∈ (t.loop i).blocks, b ∈ (t.loop j).blocks) ∧ ∃ b ∈ (t.loop j).blocks, b ∉ (t.loop i).blocks

theorem Matches.inside_iff (h : t.Matches m f e) (hG : FlowGraph m f e) (hi : i < t.loops.length)
    (hj : j < t.loops.length) :
    t.Inside i j ↔ t.Encloses m e j i := by
  have hr := (h.spans j hj).heads.reached
  constructor
  · rintro ⟨hsub,b,hbj,hbi⟩
    refine ⟨hj,?_,((h.spans j hj).blocks _).mp (hsub _ (((h.spans i hi).blocks _).mpr .header))⟩
    rintro rfl
    exact hbi hbj
  · intro hen
    refine ⟨fun b hb => ?_,(t.loop j).header,((h.spans j hj).blocks _).mpr .header,fun hm => ?_⟩
    · rw [(h.spans i hi).blocks] at hb
      rw [(h.spans j hj).blocks]
      exact hen.inLoop.trans hb hr
    · rw [(h.spans i hi).blocks] at hm
      exact hen.ne (h.eq_of_header hG hj hi (hen.inLoop.antisymm hm hr))

open Classical in
/-- A loop of the analysis with its place among the others. -/
structure IsNatural (m : Module) (f : FuncId) (e : BlockId) (t : Forest) (n : Nat) : Prop where
  members : (t.loop n).blocks = (m.func f).layout.filter fun b =>
    decide (b = (t.loop n).header ∨ m.Returns e (t.loop n).header b)
  dominated : ∀ b ∈ (t.loop n).blocks, m.Dominates e (t.loop n).header b
  apart : ∀ j, j < t.loops.length → j ≠ n → (∀ b ∈ (t.loop n).blocks, b ∉ (t.loop j).blocks) ∨
    t.Inside n j ∨ t.Inside j n
  /-- The parent is the smallest of the other loops that contain the header, -/
  parent : ∀ k, (t.loop n).parent = some k ↔ k < t.loops.length ∧ k ≠ n ∧
    (t.loop n).header ∈ (t.loop k).blocks ∧
    ∀ j, j < t.loops.length → j ≠ n → j ≠ k → (t.loop n).header ∈ (t.loop j).blocks →
      (t.loop k).blocks.length < (t.loop j).blocks.length
  /-- if there are any, -/
  outermost : (t.loop n).parent = none ↔ ∀ j, j < t.loops.length → j ≠ n →
    (t.loop n).header ∉ (t.loop j).blocks
  /-- and contains the whole loop. -/
  around : ∀ k, (t.loop n).parent = some k → ∀ b ∈ (t.loop n).blocks, b ∈ (t.loop k).blocks

open Classical in
theorem Matches.isNatural (h : t.Matches m f e) (hG : FlowGraph m f e)
    (hfound : ∀ n, n < t.loops.length → (t.loop n).Found m f e) (hn : n < t.loops.length) :
    t.IsNatural m f e n := by
  have hspans := h.spans n hn
  have hsmaller : ∀ k, (t.loop n).parent = some k → ∀ j, t.Encloses m e j n → j ≠ k →
      (t.loop k).blocks.length < (t.loop j).blocks.length := by
    intro k hk j hj hjk
    obtain ⟨hkn,hinner⟩ := h.parent n hn k hk
    have hen := (hinner j hj).resolve_left hjk
    exact length_lt hG (hfound k hkn.lt) (hfound j hj.lt) hen.inLoop fun heq =>
      hjk (h.eq_of_header hG hj.lt hkn.lt heq)
  refine ⟨?_,fun b hb => ((hspans.blocks b).mp hb).dominates,fun j hj hjn => ?_,
    fun k => ⟨fun hk => ?_,?_⟩,⟨fun hp j hj hjn => ?_,fun hall => ?_⟩,
    fun k hk => ((h.inside_iff hG hn (h.parent n hn k hk).1.lt).mpr (h.parent n hn k hk).1).1⟩
  · rw [(hfound n hn).blocks]
    refine filter_congr fun b hb => ?_
    rw [Bool.eq_iff_iff,decide_eq_true_eq,← inLoop_iff,hspans.contains_iff hG hb]
  · -- two loops with a common block are nested
    by_cases hcommon : ∃ b ∈ (t.loop n).blocks, b ∈ (t.loop j).blocks
    · obtain ⟨b,hbn,hbj⟩ := hcommon
      have hbn := (hspans.blocks b).mp hbn
      refine Or.inr ?_
      rw [h.inside_iff hG hn hj,h.inside_iff hG hj hn]
      rcases hbn.nested (((h.spans j hj).blocks b).mp hbj) (hbn.reached hspans.heads.reached)
        with hin | hin
      · exact Or.inr ⟨hn,Ne.symm hjn,hin⟩
      · exact Or.inl ⟨hj,hjn,hin⟩
    · exact Or.inl fun b hbn hbj => hcommon ⟨b,hbn,hbj⟩
  · have hkn := (h.parent n hn k hk).1
    exact ⟨hkn.lt,hkn.ne,(h.mem_blocks_iff hkn.lt hkn.ne).mpr hkn,fun j hj hjn hjk hm =>
      hsmaller k hk j ((h.mem_blocks_iff hj hjn).mp hm) hjk⟩
  · rintro ⟨hk,hkn,hm,hleast⟩
    have hen := (h.mem_blocks_iff hk hkn).mp hm
    cases hp : (t.loop n).parent with
    | none => exact absurd hen (h.outermost n hn hp k)
    | some q =>
      by_contra hne
      have hqk : q ≠ k := fun heq => hne (congrArg some heq)
      have hqn := (h.parent n hn q hp).1
      have h1 := hsmaller q hp k hen (Ne.symm hqk)
      have h2 := hleast q hqn.lt hqn.ne hqk ((h.mem_blocks_iff hqn.lt hqn.ne).mpr hqn)
      omega
  · rw [h.mem_blocks_iff hj hjn]
    exact h.outermost n hn hp j
  · cases hp : (t.loop n).parent with
    | none => rfl
    | some q =>
      have hqn := (h.parent n hn q hp).1
      exact absurd ((h.mem_blocks_iff hqn.lt hqn.ne).mpr hqn) (hall q hqn.lt hqn.ne)

end Forest

open Classical in
/-- The analysis of loops finds the natural loops of a function that has been checked, nests them as
they are nested and lists each after those inside it. -/
theorem findLoops_exact {m : Module} {f : FuncId} (hv : m.verify f = .ok ()) (hl : LaidOut m f) :
    (m.findLoops f (m.dominators f)).loops.map (·.header) =
      ((m.func f).layout.filter fun b => decide (∃ e, (m.func f).entryBlock? = some e ∧
        m.Heads e b)) ∧
    (∀ e, (m.func f).entryBlock? = some e → ∀ n, n < (m.findLoops f (m.dominators f)).loops.length →
      (m.findLoops f (m.dominators f)).IsNatural m f e n) ∧
    (m.findLoops f (m.dominators f)).postorder.Perm
      (List.range (m.findLoops f (m.dominators f)).loops.length) ∧
    (m.findLoops f (m.dominators f)).postorder.Pairwise fun i j =>
      ¬(m.findLoops f (m.dominators f)).Inside j i := by
  cases he : (m.func f).entryBlock? with
  | none =>
    have hlayout : (m.func f).layout = [] := List.head?_eq_none_iff.mp he
    have hnone : m.findLoops f (m.dominators f) = .ofLoops [] := by
      rw [findLoops,hlayout]
      rfl
    rw [hnone,hlayout]
    refine ⟨rfl,fun e' he' => ?_,.refl _,List.Pairwise.nil⟩
    cases he'
  | some e =>
    have hG := hl.flowGraph hv he
    have hmatches := hG.matches_findLoops.1
    have hindexed : (m.findLoops f (m.dominators f)).Indexed := Forest.indexed_ofLoops _
    refine ⟨?_,fun e' he' n hn => ?_,hmatches.postorder_perm hG hindexed,?_⟩
    · rw [hmatches.headers]
      exact List.filter_congr fun b _ => by simp
    · obtain rfl := Option.some.inj he'
      exact hmatches.isNatural hG (fun n hn => hG.found_findLoops hn) hn
    · obtain ⟨hmem,hord⟩ := hmatches.lists_postorder hG hindexed
      refine hord.imp_of_mem fun {i j} hi hj hij => ?_
      rw [hmatches.inside_iff hG ((hmem j).mp hj) ((hmem i).mp hi)]
      exact hij.2

/-- A loop around a loop, with one block that branches back to both headers, and a block that
nothing leads to but that leads into the inner one. -/
def turns : Module :=
  let b (n : Nat) : BlockId := ⟨0,n⟩
  { name := "turns", globals := [], funcs := [0], globalTable := .empty
    funcTable := ⟨#[⟨"main",.void,[],[b 0,b 1,b 2,b 3,b 4,b 5],⟨#[
      ⟨"entry",[0],[],[b 1],[]⟩,⟨"outer",[1],[b 0,b 3],[b 2,b 4],[0,3]⟩,
      ⟨"inner",[2],[b 1,b 3,b 5],[b 3],[1,3,5]⟩,⟨"turn",[3],[b 2],[b 2,b 1],[2]⟩,
      ⟨"end",[4],[b 1],[],[1]⟩,⟨"lost",[5],[],[b 2],[]⟩]⟩,0,.empty,[]⟩]⟩
    instrTable := ⟨#[
      ⟨.br,.void,none,none,[.block (b 1)],some (b 0),[]⟩,
      ⟨.br,.void,none,none,[.literal 0,.block (b 2),.block (b 4)],some (b 1),[]⟩,
      ⟨.br,.void,none,none,[.block (b 3)],some (b 2),[]⟩,
      ⟨.br,.void,none,none,[.literal 0,.block (b 2),.block (b 1)],some (b 3),[]⟩,
      ⟨.ret,.void,none,none,[],some (b 4),[]⟩,⟨.br,.void,none,none,[.block (b 2)],some (b 5),[]⟩]⟩
    literalTable := ⟨#[⟨.int 0,[1,3]⟩]⟩ }

theorem findLoops_exact_turns : turns.verify 0 = .ok () ∧ LaidOut turns 0 ∧
    (turns.findLoops 0 (turns.dominators 0)).loops.map (·.blocks) =
      [[⟨0,1⟩,⟨0,2⟩,⟨0,3⟩],[⟨0,2⟩,⟨0,3⟩]] ∧
    (∀ n, n < 2 → (turns.findLoops 0 (turns.dominators 0)).IsNatural turns 0 ⟨0,0⟩ n) ∧
    ¬(turns.findLoops 0 (turns.dominators 0)).Inside 0 1 := by
  have hv : turns.verify 0 = .ok () := rfl
  have hl : LaidOut turns 0 := ⟨by decide,by decide⟩
  have hloops : (turns.findLoops 0 (turns.dominators 0)).loops.map (·.blocks) =
      [[⟨0,1⟩,⟨0,2⟩,⟨0,3⟩],[⟨0,2⟩,⟨0,3⟩]] := by
    decide +kernel
  have horder : (turns.findLoops 0 (turns.dominators 0)).postorder = [1,0] := by
    rw [findLoops,Forest.ofLoops_eq_ofFew (by decide +kernel)]
    decide +kernel
  have hlen : (turns.findLoops 0 (turns.dominators 0)).loops.length = 2 := by
    simpa using congrArg List.length hloops
  obtain ⟨_,hnatural,_,hordered⟩ := findLoops_exact hv hl
  refine ⟨hv,hl,hloops,fun n hn => hnatural ⟨0,0⟩ rfl n (by rwa [hlen]),?_⟩
  rw [horder] at hordered
  simpa using hordered

end CMinusF
