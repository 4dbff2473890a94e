import BufferOwnership.Proofs.Coherence
import BufferOwnership.Proofs.DeclaredShapes
import BufferOwnership.Proofs.Legibility

/-!
# What printed text says of a routine

The text of a routine determines its outline, and this module goes on from there to the tables.
`Printable` says that all that is looked up on the way down is there and that the way down ends;
then the routine is printed. `ShownAlike` says that operations agree in all that is shown of them,
further inside too. Routines that are printed alike are shown alike.
-/

namespace BufferOwnership

/-- How many operands of a retain are shown as retained: no more than there are. -/
def Op.retained? (d : Op) : Option Nat :=
  match d.kind with
  | .retain count => some (min count d.operands.length)
  | _ => none

theorem Op.operandList_inj {d d' : Op} (h : d.operandList = d'.operandList) :
    d.operands = d'.operands ∧ d.retained? = d'.retained? := by
  unfold operandList at h
  unfold retained?
  split at h <;> split at h
  · obtain ⟨htake, hdrop⟩ := OperandList.grouped.inj h
    have hlength := congrArg List.length htake
    rw [List.length_take, List.length_take] at hlength
    refine ⟨?_, by simp [*]⟩
    rw [← List.take_append_drop _ d.operands, htake, hdrop, List.take_append_drop]
  · cases h
  · cases h
  · exact ⟨OperandList.plain.inj h, by simp [*]⟩

namespace Routine

variable {r r' : Routine} {o o' : OpId} {g : RegionId} {b : BlockId} {fuel : Nat}
variable {inner : OpId → Except Fault OpOutline}

/-! ## What an outline holds -/

theorem mem_mapM {α β : Type} {f : α → Except Fault β} {l : List α} {out : List β} {y : β}
    (h : l.mapM f = .ok out) (hy : y ∈ out) : ∃ x ∈ l, f x = .ok y := by
  have hall := mapM_eq_ok.mp h
  clear h
  induction hall with
  | nil => cases hy
  | cons hx _ ih =>
    rcases List.mem_cons.mp hy with rfl | hy
    · exact ⟨_, by simp, hx⟩
    · obtain ⟨x, hmem, hx⟩ := ih hy
      exact ⟨x, by simp [hmem], hx⟩

theorem mapM_typed_eq_ok {vs : List ValueId} {shown : List TypedValue} :
    vs.mapM r.typed = .ok shown ↔
      vs = shown.map TypedValue.id ∧ vs.map r.ty? = shown.map fun v => some v.ty := by
  have htyped : ∀ v w, r.typed v = .ok w ↔ v = w.id ∧ r.ty? v = some w.ty := fun v w => by
    rw [typed, bind_eq_ok]
    simp only [typeOf_eq_ok]
    constructor
    · rintro ⟨ty, hty, ⟨⟩⟩
      exact ⟨rfl, hty⟩
    · rintro ⟨rfl, hty⟩
      exact ⟨w.ty, hty, rfl⟩
  simp only [mapM_eq_ok, htyped]
  induction vs generalizing shown with
  | nil => cases shown <;> simp
  | cons v vs ih =>
    cases shown with
    | nil => simp
    | cons w shown =>
      simp only [List.forall₂_cons, ih, List.map_cons, List.cons.injEq]
      tauto

theorem outlineBlock_eq_ok {x : BlockOutline} : r.outlineBlock inner b = .ok x ↔
    r.block? b ≠ none ∧ ∃ args ops, (r.argsOf b).mapM r.typed = .ok args ∧
      (r.opsOf b).mapM inner = .ok ops ∧ x = .mk b args ops := by
  cases hB : r.block? b with
  | none => simp [outlineBlock, block, hB, bind, Except.bind]
  | some B =>
    rw [outlineBlock, bind_of_ok (block_eq_ok.mpr hB), argsOf_of hB, opsOf_of hB]
    simp only [bind_eq_ok, pure, Except.pure, Except.ok.injEq, eq_comm (a := x)]
    simp

theorem outlineRegion_eq_ok {x : RegionOutline} : r.outlineRegion inner g = .ok x ↔
    r.region? g ≠ none ∧ (r.blocksOf g).mapM (r.outlineBlock inner) = .ok x.blocks := by
  cases hG : r.region? g with
  | none => simp [outlineRegion, region, hG, bind, Except.bind]
  | some G =>
    rw [outlineRegion, bind_of_ok (region_eq_ok.mpr hG), blocksOf_of hG]
    obtain ⟨blocks⟩ := x
    simp [bind_eq_ok, pure, Except.pure, RegionOutline.blocks]

theorem outlineWithin_eq_ok {x : OpOutline} : r.outlineWithin (fuel + 1) o = .ok x ↔
    ∃ d results nested, r.op? o = some d ∧ d.results.mapM r.typed = .ok results ∧
      d.regions.mapM (r.outlineRegion (r.outlineWithin fuel)) = .ok nested ∧
      x = .mk d.kind.name results d.operandList nested := by
  simp only [outlineWithin, bind_eq_ok, op_eq_ok, getElem?_ops, pure, Except.pure, Except.ok.injEq,
    eq_comm (a := x)]
  simp

/-- The outlines of the operations in a region are outlines of operations listed there. -/
theorem mem_outlineRegion {x : RegionOutline} (h : r.outlineRegion inner g = .ok x)
    {y : BlockOutline} (hy : y ∈ x.blocks) {z : OpOutline} (hz : z ∈ y.ops) :
    ∃ b ∈ r.blocksOf g, ∃ p ∈ r.opsOf b, inner p = .ok z := by
  obtain ⟨b, hb, hblock⟩ := mem_mapM (outlineRegion_eq_ok.mp h).2 hy
  obtain ⟨-, args, ops, -, hops, rfl⟩ := outlineBlock_eq_ok.mp hblock
  exact ⟨b, hb, mem_mapM hops hz⟩

/-! ## Names -/

/-- The names that a routine brings along are names: its own, and those of generic operations. -/
structure HasNames (r : Routine) : Prop where
  own : ∀ name, r.name = .ok name → Outline.IsName name
  generic : ∀ o d name effects, r.Below r.root o → r.op? o = some d →
    d.kind = .generic name effects → Outline.IsName name

theorem HasNames.isName (h : r.HasNames) {d : Op} (ho : r.Below r.root o) (hd : r.op? o = some d) :
    Outline.IsName d.kind.name := by
  cases hkind : d.kind with
  | generic name effects => exact h.generic o d name effects ho hd hkind
  | _ => exact ⟨by simp [OpKind.name], by simp only [OpKind.name]; decide⟩

/-- The outline of an operation has the operation's name, and outlines of what is below it. -/
theorem HasNames.named (h : r.HasNames) {x : OpOutline} (ho : r.Below r.root o)
    (hx : r.outlineWithin fuel o = .ok x) : x.Named := by
  induction fuel generalizing o x with
  | zero => cases hx
  | succ fuel ih =>
    obtain ⟨d, results, nested, hd, -, hnested, rfl⟩ := outlineWithin_eq_ok.mp hx
    refine .intro (h.isName ho hd) fun gx hgx bx hbx y hy => ?_
    obtain ⟨g, hg, hregion⟩ := mem_mapM hnested hgx
    obtain ⟨b, hb, p, hp, hy⟩ := mem_outlineRegion hregion hbx hy
    exact ih (ho.tail ((lists_iff hd).mpr ⟨g, hg, b, hb, hp⟩)) hy

/-! ## What is printed at all -/

/-- All that is looked up on the way down from the root is there, and the way down ends. -/
structure Printable (r : Routine) : Prop where
  entry : ∃ b, r.entryBlock = .ok b
  tree : ∃ t : OpTree, t.op = r.root ∧ r.Unfolds t
  ops : ∀ o, r.Below r.root o → r.op? o ≠ none
  regions : ∀ o, r.Below r.root o → ∀ g ∈ r.regionsOf o, r.region? g ≠ none
  blocks : ∀ o, r.Below r.root o → ∀ g ∈ r.regionsOf o, ∀ b ∈ r.blocksOf g, r.block? b ≠ none
  results : ∀ o, r.Below r.root o → ∀ v ∈ r.resultsOf o, r.ty? v ≠ none
  args : ∀ o, r.Below r.root o → ∀ g ∈ r.regionsOf o, ∀ b ∈ r.blocksOf g, ∀ v ∈ r.argsOf b,
    r.ty? v ≠ none

/-- The entry block is in a region of the root. -/
theorem mem_of_entryBlock (h : r.entryBlock = .ok b) :
    ∃ g ∈ r.regionsOf r.root, b ∈ r.blocksOf g := by
  obtain ⟨d, hd, h⟩ := bind_eq_ok.mp h
  rw [regionsOf_of (op_eq_ok.mp hd)]
  cases hregions : d.regions with
  | nil => simp [hregions] at h
  | cons body rest =>
    simp only [hregions] at h
    obtain ⟨G, hG, h⟩ := bind_eq_ok.mp h
    cases hblocks : G.blocks with
    | nil => simp [hblocks] at h
    | cons first more =>
      simp only [hblocks] at h
      cases h
      exact ⟨body, by simp, by simp [blocksOf_of (region_eq_ok.mp hG), hblocks]⟩

theorem mapM_typed_ok {vs : List ValueId} (h : ∀ v ∈ vs, r.ty? v ≠ none) :
    ∃ shown, vs.mapM r.typed = .ok shown := by
  refine exists_mapM_eq_ok.mpr fun v hv => ?_
  obtain ⟨ty, hty⟩ := Option.ne_none_iff_exists'.mp (h v hv)
  exact ⟨⟨v, ty⟩, bind_eq_ok.mpr ⟨ty, typeOf_eq_ok.mpr hty, rfl⟩⟩

namespace Printable

/-- One step down: an operation has an outline if all that it lists has. -/
theorem outlineWithin_succ (h : r.Printable) {d : Op} (hd : r.op? o = some d)
    (ho : r.Below r.root o)
    (hinner : ∀ p, r.Lists o p → ∃ x, r.outlineWithin fuel p = .ok x) :
    ∃ x, r.outlineWithin (fuel + 1) o = .ok x := by
  have hregions := regionsOf_of hd
  obtain ⟨results, hresults⟩ := mapM_typed_ok fun v hv =>
    h.results o ho v (by rwa [resultsOf_of hd])
  have hblock : ∀ g ∈ d.regions, ∀ b ∈ r.blocksOf g,
      ∃ x, r.outlineBlock (r.outlineWithin fuel) b = .ok x := by
    intro g hg b hb
    rw [← hregions] at hg
    obtain ⟨args, hargs⟩ := mapM_typed_ok (h.args o ho g hg b hb)
    obtain ⟨ops, hops⟩ := exists_mapM_eq_ok.mpr fun p hp =>
      hinner p ((lists_iff hd).mpr ⟨g, hregions ▸ hg, b, hb, hp⟩)
    exact ⟨_, outlineBlock_eq_ok.mpr ⟨h.blocks o ho g hg b hb, args, ops, hargs, hops, rfl⟩⟩
  obtain ⟨nested, hnested⟩ := exists_mapM_eq_ok.mpr fun g hg => by
    obtain ⟨blocks, hblocks⟩ := exists_mapM_eq_ok.mpr (hblock g hg)
    exact ⟨.mk blocks, outlineRegion_eq_ok.mpr ⟨h.regions o ho g (hregions ▸ hg), hblocks⟩⟩
  exact ⟨_, outlineWithin_eq_ok.mpr ⟨d, results, nested, hd, hresults, hnested, rfl⟩⟩

/-- What is listed below the root has an outline: the bound on the descent is not used up. -/
theorem exists_outlineWithin (h : r.Printable) (ho : r.Below r.root o) :
    ∃ x, r.outlineWithin r.depthBound o = .ok x := by
  obtain ⟨t, htop, ht⟩ := h.tree
  have hacc : Acc (fun o p => r.Lists p o) o := by
    have hroot : Acc (fun o p => r.Lists p o) r.root := htop ▸ ht.acc
    induction ho with
    | refl => exact hroot
    | tail _ hlists ih => exact ih.inv hlists
  refine descend_within (fun p hp => ?_)
    (P := fun fuel p => r.Below r.root p → ∃ x, r.outlineWithin fuel p = .ok x)
    (fun fuel p d hd hinner hp => h.outlineWithin_succ hd hp fun q hq => hinner q hq (hp.tail hq))
    hacc ho
  obtain ⟨d, hd⟩ := Option.ne_none_iff_exists'.mp (h.ops p (ho.trans hp))
  exact lt_of_op? hd

end Printable

/-- A coherent routine with an entry block is printable. -/
theorem Coherent.printable (h : r.Coherent) (hentry : ∃ b, r.entryBlock = .ok b) :
    r.Printable where
  entry := hentry
  tree := by
    obtain ⟨t, htop, ht, -⟩ := h.formsTree h.root_unlinked h.root_known
    exact ⟨t, htop, ht⟩
  ops o ho := by
    obtain ⟨d, hd⟩ := exists_op? (h.inRange.known h.root_known ho)
    simp [hd]
  regions o _ := h.inRange.regions o
  blocks _ _ g _ := h.inRange.blocks g
  results o _ v hv := by
    obtain ⟨V, hV⟩ := exists_value? (h.results_known o v hv)
    simp [ty?_of hV]
  args _ _ _ _ b _ v hv := by
    obtain ⟨V, hV⟩ := exists_value? (h.args_known b v hv)
    simp [ty?_of hV]

/-! ## What two routines have in common -/

/-- Two routines list the same values, and give them the same types. -/
def SameTyped (r r' : Routine) (vs vs' : List ValueId) : Prop :=
  vs = vs' ∧ vs.map r.ty? = vs'.map r'.ty?

/-- What can be read of two operations is the same: the name, the results with their types, the
operands and how a retain divides them, the blocks of each region, and for each block its arguments
with their types and its operations, one by one. -/
inductive ShownAlike (r r' : Routine) : OpId → OpId → Prop
  | intro {o o' : OpId} {d d' : Op} (entry : r.op? o = some d) (entry' : r'.op? o' = some d')
      (name : d.kind.name = d'.kind.name) (results : SameTyped r r' d.results d'.results)
      (operands : d.operands = d'.operands) (split : d.retained? = d'.retained?)
      (blocks : d.regions.map r.blocksOf = d'.regions.map r'.blocksOf)
      (args : ∀ g ∈ d.regions, ∀ b ∈ r.blocksOf g, SameTyped r r' (r.argsOf b) (r'.argsOf b))
      (ops : ∀ g ∈ d.regions, ∀ b ∈ r.blocksOf g,
        List.Forall₂ (ShownAlike r r') (r.opsOf b) (r'.opsOf b)) : ShownAlike r r' o o'

/-- Blocks with one number show the same in two routines. -/
def BlocksAlike (r r' : Routine) (b : BlockId) : Prop :=
  SameTyped r r' (r.argsOf b) (r'.argsOf b) ∧
    List.Forall₂ (ShownAlike r r') (r.opsOf b) (r'.opsOf b)

theorem sameTyped_of_mapM {vs vs' : List ValueId} {shown : List TypedValue}
    (h : vs.mapM r.typed = .ok shown) (h' : vs'.mapM r'.typed = .ok shown) :
    SameTyped r r' vs vs' := by
  obtain ⟨hids, htypes⟩ := mapM_typed_eq_ok.mp h
  obtain ⟨hids', htypes'⟩ := mapM_typed_eq_ok.mp h'
  exact ⟨hids.trans hids'.symm, htypes.trans htypes'.symm⟩

/-- Two lists with the same answers are related one by one. -/
theorem forall₂_of_mapM {α β γ : Type} {f : α → Except Fault γ} {f' : β → Except Fault γ}
    {l : List α} {l' : List β} {out : List γ} {R : α → β → Prop} (h : l.mapM f = .ok out)
    (h' : l'.mapM f' = .ok out)
    (hR : ∀ a b c, f a = .ok c → f' b = .ok c → R a b) : List.Forall₂ R l l' := by
  replace h := mapM_eq_ok.mp h
  replace h' := mapM_eq_ok.mp h'
  induction h generalizing l' with
  | nil =>
    cases h'
    exact .nil
  | cons ha _ ih =>
    cases h' with
    | cons hb hrest => exact .cons (hR _ _ _ ha hb) (ih hrest)

/-- Operations with one outline show the same. The fuel may be a different one on the two sides. -/
theorem shownAlike_of_outline {fuel' : Nat} {x : OpOutline} (h : r.outlineWithin fuel o = .ok x)
    (h' : r'.outlineWithin fuel' o' = .ok x) : ShownAlike r r' o o' := by
  induction fuel generalizing fuel' o o' x with
  | zero => cases h
  | succ fuel ih =>
    cases fuel' with
    | zero => cases h'
    | succ fuel' =>
      obtain ⟨d, results, nested, hd, hresults, hnested, rfl⟩ := outlineWithin_eq_ok.mp h
      obtain ⟨d', _, _, hd', hresults', hnested', hshown⟩ := outlineWithin_eq_ok.mp h'
      obtain ⟨hname, rfl, hlist, rfl⟩ := OpOutline.mk.inj hshown
      obtain ⟨hoperands, hsplit⟩ := Op.operandList_inj hlist
      -- a block has the same number on both sides, and what its outline shows is the same
      have hblock : ∀ b b' y, r.outlineBlock (r.outlineWithin fuel) b = .ok y →
          r'.outlineBlock (r'.outlineWithin fuel') b' = .ok y → BlocksAlike r r' b ∧ b = b' := by
        intro b b' y hy hy'
        obtain ⟨-, args, ops, hargs, hops, rfl⟩ := outlineBlock_eq_ok.mp hy
        obtain ⟨-, _, _, hargs', hops', hshown⟩ := outlineBlock_eq_ok.mp hy'
        obtain ⟨rfl, rfl, rfl⟩ := BlockOutline.mk.inj hshown
        exact ⟨⟨sameTyped_of_mapM hargs hargs', forall₂_of_mapM hops hops'
          fun _ _ _ hp hp' => ih hp hp'⟩, rfl⟩
      have hregion : ∀ g g' y, r.outlineRegion (r.outlineWithin fuel) g = .ok y →
          r'.outlineRegion (r'.outlineWithin fuel') g' = .ok y →
          (∀ b ∈ r.blocksOf g, BlocksAlike r r' b) ∧ r.blocksOf g = r'.blocksOf g' := by
        intro g g' y hy hy'
        rw [← List.forall₂_eq_eq_eq, ← List.forall₂_and_left]
        exact forall₂_of_mapM (outlineRegion_eq_ok.mp hy).2 (outlineRegion_eq_ok.mp hy').2 hblock
      obtain ⟨halike, hblocks⟩ :=
        (List.forall₂_and_left _ _).mp (forall₂_of_mapM hnested hnested' hregion)
      refine .intro hd hd' hname (sameTyped_of_mapM hresults hresults') hoperands hsplit ?_
        (fun g hg b hb => (halike g hg b hb).1) fun g hg b hb => (halike g hg b hb).2
      rwa [← List.forall₂_eq_eq_eq, List.forall₂_map_left_iff, List.forall₂_map_right_iff]

/-- The parts of a routine's outline. -/
theorem outline_eq_ok {x : RoutineOutline} : r.outline = .ok x ↔
    ∃ b, r.entryBlock = .ok b ∧ r.block? b ≠ none ∧ r.name = .ok x.name ∧
      (r.argsOf b).mapM r.typed = .ok x.params ∧
      (r.opsOf b).mapM (r.outlineWithin r.depthBound) = .ok x.body := by
  rw [outline, bind_eq_ok]
  refine exists_congr fun b => and_congr_right fun _ => ?_
  obtain ⟨name, params, body⟩ := x
  cases hB : r.block? b with
  | none => simp [block, hB, bind, Except.bind]
  | some B =>
    rw [bind_of_ok (block_eq_ok.mpr hB), argsOf_of hB, opsOf_of hB]
    simp [bind_eq_ok, pure, Except.pure]

/-- A printable routine has an outline, and where the names are names it can be read. -/
theorem Printable.exists_outline (h : r.Printable) (hnames : r.HasNames) :
    ∃ x, r.outline = .ok x ∧ Outline.IsName x.name ∧ ∀ y ∈ x.body, y.Named := by
  obtain ⟨b, hb⟩ := h.entry
  obtain ⟨g, hg, hbg⟩ := mem_of_entryBlock hb
  obtain ⟨d, hd⟩ := Option.ne_none_iff_exists'.mp (h.ops r.root .refl)
  have hbelow : ∀ o ∈ r.opsOf b, r.Below r.root o := fun o ho =>
    .single ((lists_iff hd).mpr ⟨g, regionsOf_of hd ▸ hg, b, hbg, ho⟩)
  obtain ⟨name, hname⟩ : ∃ name, r.name = .ok name := by
    rw [Routine.name, bind_of_ok (op_eq_ok.mpr hd)]
    split <;> exact ⟨_, rfl⟩
  obtain ⟨params, hparams⟩ := mapM_typed_ok (h.args r.root .refl g hg b hbg)
  obtain ⟨body, hbody⟩ := exists_mapM_eq_ok.mpr fun o ho => h.exists_outlineWithin (hbelow o ho)
  refine ⟨⟨name, params, body⟩, outline_eq_ok.mpr
    ⟨b, hb, h.blocks r.root .refl g hg b hbg, hname, hparams, hbody⟩, hnames.own name hname, ?_⟩
  intro y hy
  obtain ⟨o, ho, hy⟩ := mem_mapM hbody hy
  exact hnames.named (hbelow o ho) hy

/-- **The printed text determines what is printed.** Take two routines for which all that is listed
below the root is there and forms a finite tree, and whose names are names. Both are printed. If the
texts are the same, then so are the names of the routines, their parameters with the types, and the
operations of their entry blocks, one by one and all the way down. -/
theorem shownAlike_of_render (h : r.Printable) (h' : r'.Printable) (hnames : r.HasNames)
    (hnames' : r'.HasNames) :
    ∃ text text', r.render = .ok text ∧ r'.render = .ok text' ∧
      (text = text' → ∃ name b b', r.name = .ok name ∧ r'.name = .ok name ∧
        r.entryBlock = .ok b ∧ r'.entryBlock = .ok b' ∧
        SameTyped r r' (r.argsOf b) (r'.argsOf b') ∧
        List.Forall₂ (ShownAlike r r') (r.opsOf b) (r'.opsOf b')) := by
  obtain ⟨x, hx, hname, hops⟩ := h.exists_outline hnames
  obtain ⟨y, hy, hname', hops'⟩ := h'.exists_outline hnames'
  refine ⟨x.render, y.render, bind_eq_ok.mpr ⟨x, hx, rfl⟩, bind_eq_ok.mpr ⟨y, hy, rfl⟩, ?_⟩
  intro htext
  obtain rfl := Outline.render_routine_inj hname hname' hops hops' htext
  obtain ⟨b, hb, -, hown, hparams, hbody⟩ := outline_eq_ok.mp hx
  obtain ⟨b', hb', -, hown', hparams', hbody'⟩ := outline_eq_ok.mp hy
  exact ⟨x.name, b, b', hown, hown', hb, hb', sameTyped_of_mapM hparams hparams',
    forall₂_of_mapM hbody hbody' fun _ _ _ => shownAlike_of_outline⟩

/-- A routine that retains its parameter in a region of an operation. -/
def retaining (count : Nat) : Routine where
  values := #[⟨.buffer .f32 2, .argument ⟨0⟩ 0⟩]
  ops := #[
    ⟨.routine "kept.twice", [], [], [⟨0⟩], none, false⟩,
    ⟨.generic "in_turn" [], [], [], [⟨1⟩], some ⟨0⟩, false⟩,
    ⟨.retain count, [⟨0⟩], [], [], some ⟨1⟩, false⟩]
  blocks := #[⟨[⟨0⟩], [⟨1⟩], ⟨0⟩⟩, ⟨[], [⟨2⟩], ⟨1⟩⟩]
  regions := #[⟨[⟨0⟩], ⟨0⟩⟩, ⟨[⟨1⟩], ⟨1⟩⟩]
  root := ⟨0⟩

theorem retaining_hasNames (count : Nat) : (retaining count).HasNames where
  own := by
    rintro _ ⟨⟩
    exact ⟨by decide, by decide⟩
  generic := by
    intro o d name effects _ hd hkind
    have hmem := Array.mem_of_getElem? hd
    simp only [retaining, List.mem_toArray, List.mem_cons, List.not_mem_nil, or_false] at hmem
    rcases hmem with rfl | rfl | rfl <;> cases hkind
    exact ⟨by decide, by decide⟩

/-- A retain of more values than it has is printed like one of all that it has. -/
theorem retaining_shownAlike : ∃ text, (retaining 1).render = .ok text ∧
    (retaining 3).render = .ok text ∧ SameTyped (retaining 1) (retaining 3) [⟨0⟩] [⟨0⟩] ∧
    List.Forall₂ (ShownAlike (retaining 1) (retaining 3)) [⟨1⟩] [⟨1⟩] := by
  have hprintable : ∀ count, (retaining count).isWellFormed = true →
      (retaining count).Printable := fun count hcheck =>
    (wellFormed_of_check hcheck).coherent.printable ⟨⟨0⟩, rfl⟩
  obtain ⟨text, text', h, h', hsame⟩ := shownAlike_of_render
    (hprintable 1 (by decide +kernel)) (hprintable 3 (by decide +kernel)) (retaining_hasNames 1)
    (retaining_hasNames 3)
  have htext : (retaining 3).render = (retaining 1).render := by cbv
  rw [h, h'] at htext
  obtain rfl := Except.ok.inj htext
  obtain ⟨name, b, b', -, -, hb, hb', hparams, hops⟩ := hsame rfl
  cases hb
  cases hb'
  exact ⟨_, h, h', hparams, hops⟩

end Routine

end BufferOwnership
