import BufferOwnership.Proofs.Arrivals
import BufferOwnership.Proofs.Dominance
import BufferOwnership.Proofs.EarliestReleases

/-!
# What goes into a construct

Every buffer operand of a construct brings an indicator: the result of a null that is made for it,
or one that the enclosing block owns and gives away. This is decided with the alias classes of the
moment when the regions have been brought to agree. An indicator is handed over only if no alias of
the operand is touched inside the construct or after it, or has been released there before.
-/

namespace BufferOwnership

variable {f r r' r'' : Routine} {s s' : Session} {b c : BlockId} {o p : OpId}
variable {front rest : List OpId} {i v : ValueId} {d : Op} {settings : Settings} {treat : OpPass}
variable {kind : ConstructKind} {owned released released' : ValueSet} {classes : AliasClasses}
variable {operands indicators : List ValueId} {types : List Ty}

namespace Routine

/-! ## The last use -/

/-- Going on along a block says that nothing is touched only if so it is. -/
theorem Nested.not_touches_of_untouchedFrom (hn : r.Nested) {test : ValueId → Bool} {first : OpId}
    {fuel : Nat} (hlist : r.opsOf b = front ++ o :: rest)
    (h : r.untouchedFrom test first fuel o = .ok true) :
    ∀ p ∈ o :: rest, ¬ r.Touches test p (p != first) := by
  induction fuel generalizing o front rest with
  | zero => cases h
  | succ fuel ih =>
    rw [untouchedFrom] at h
    obtain ⟨answer, htouches, h⟩ := bind_eq_ok.mp h
    cases answer with
    | true => cases h
    | false =>
      simp only [Bool.false_eq_true, if_false, bind_of_ok (hn.nextOp? hlist)] at h
      refine List.forall_mem_cons.mpr ⟨hn.not_touches htouches, ?_⟩
      cases rest with
      | nil => simp
      | cons next rest =>
        have hnext : r.opsOf b = (front ++ [o]) ++ next :: rest := by simp [hlist]
        exact ih hnext h

/-- An operation that is reached does not use its own results. -/
theorem WellFormed.notMem_resultsOf (hw : r.WellFormed) (ho : r.Reached o)
    (hv : v ∈ r.operandsOf o) : v ∉ r.resultsOf o := by
  intro hres
  obtain ⟨b, front, rest, hlist, hvisible⟩ := hw.in_scope o ho v hv
  have hmem : o ∈ r.opsOf b := by simp [hlist]
  cases hvisible with
  | argument harg => exact hw.linked.not_arg_of_result hres harg
  | earlier hp hres' =>
    -- it would stand before itself
    obtain rfl := hw.linked.result_unique hres hres'
    exact (hw.linked.toNested.listed_once hlist).1 hp
  | @enclosing _ c _ before after _ m hholder hlist' hvisible =>
    -- its block would be around the one that holds it
    obtain ⟨a, ha, hunder⟩ := hvisible.declared hw.linked fun p hp => by simp [hlist', hp]
    obtain rfl : a = b := ha.unique (.inr ⟨o, hmem, hres⟩) hw.linked
    obtain ⟨m', hholder', hm⟩ := hw.reachedBlock ho ((hw.linked.op_listed o a).mp hmem)
    obtain rfl := Option.mem_unique hholder hholder'
    exact InsideBlock.not_parent hw.root_unlinked hm
      ((hw.linked.op_listed m c).mp (by simp [hlist'])) (insideBlock_iff.mpr ⟨a, hholder, hunder⟩)

end Routine

open Routine

/-! ## What an operand brings -/

/-- An indicator is the result of a null that was made for it in a block. -/
def FreshNull (r r' : Routine) (b : BlockId) (i : ValueId) : Prop :=
  r.values.size ≤ i.index ∧ ∃ y, r.op? y = none ∧
    r'.op? y = some { kind := .null, operands := [], results := [i], regions := []
                      parent := some b, erased := false }

/-- An indicator is handed over to a construct with an operand; `rest` stands behind it. -/
structure HandedOver (settings : Settings) (r : Routine) (classes : AliasClasses) (o : OpId)
    (owned released : ValueSet) (rest : List OpId) (v i : ValueId) : Prop where
  allowed : settings.transfer = true
  mem : i ∈ owned
  same : classes.same v i = true
  inside : ¬ r.Touches (classes.same v) o false
  later : ∀ p ∈ rest, ¬ r.Touches (classes.same v) p true
  unreleased : ∀ u ∈ released, classes.same v u = false

theorem Transferable.handedOver (h : Transferable settings s o owned released v i)
    (hl : s.routine.Linked) (hlist : s.routine.opsOf b = front ++ o :: rest) :
    HandedOver settings s.routine s.aliases o owned released rest v i := by
  have hlast := hl.not_touches_of_untouchedFrom hlist h.last
  obtain ⟨hself, hrest⟩ := List.forall_mem_cons.mp hlast
  refine ⟨h.allowed, h.mem, h.same, by simpa using hself, fun p hp => ?_, h.unreleased⟩
  -- the search leaves the operands of the construct itself out, and of nothing behind it
  have hne : p ≠ o := by
    rintro rfl
    exact (hl.listed_once hlist).2 hp
  have hlater := hrest p hp
  rwa [bne_iff_ne.mpr hne] at hlater

theorem HandedOver.mono {more : ValueSet}
    (h : HandedOver settings r classes o owned more rest v i) (hsub : ∀ u ∈ released, u ∈ more) :
    HandedOver settings r classes o owned released rest v i :=
  { h with unreleased := fun u hu => h.unreleased u (hsub u hu) }

/-- What stands in the way of handing an indicator over does so before a null is inserted, too. -/
theorem HandedOver.of_emitted {kind : OpKind} {operands : List ValueId}
    (h : HandedOver settings r' classes o owned released rest v i)
    (hem : Emitted r r' b front (o :: rest) kind operands types)
    (hold : ∀ p ∈ o :: rest, p ≠ r.freshOp) :
    HandedOver settings r classes o owned released rest v i :=
  { h with
    inside := fun ht => h.inside (hem.touches_old (hold o (by simp)) ht)
    later := fun p hp ht => h.later p hp (hem.touches_old (hold p (by simp [hp])) ht) }

/-- The indicators that come with some operands. -/
structure Handing (settings : Settings) (r r' : Routine) (classes : AliasClasses) (b : BlockId)
    (o : OpId) (owned released : ValueSet) (rest : List OpId) (entries : List (ValueId × ValueId)) :
    Prop where
  each : ∀ e ∈ entries, FreshNull r r' b e.2 ∨
    HandedOver settings r classes o owned released rest e.1 e.2
  once : entries.Pairwise fun e e' =>
    classes.same e.1 e'.1 = true → e.2 ∉ owned ∨ e'.2 ∉ owned

/-- A null that is inserted is new. -/
theorem Emitted.freshNull (hem : Emitted r r' b front rest .null [] [.ownership]) :
    FreshNull r r' b ⟨r.values.size⟩ := by
  refine ⟨Nat.le_refl _, r.freshOp, op?_freshOp r, ?_⟩
  rw [hem.op?_fresh]
  rfl

/-- What is new after an insertion is new before it. -/
theorem FreshNull.of_emitted {kind : OpKind} {operands : List ValueId} (h : FreshNull r' r'' b i)
    (hem : Emitted r r' c front rest kind operands types) : FreshNull r r'' b i := by
  obtain ⟨hnew, y, hy, hentry⟩ := h
  have hold : y ≠ r.freshOp := by
    rintro rfl
    rw [hem.op?_fresh] at hy
    cases hy
  rw [hem.op?_of_ne hold] at hy
  rw [hem.size_values] at hnew
  exact ⟨by omega, y, hy, hentry⟩

/-- What comes with the operands of a construct. -/
theorem transferOperands_handing (hl : s.routine.Linked)
    (hlist : s.routine.opsOf b = front ++ o :: rest)
    (howned : ∀ i ∈ owned, i.index < s.routine.values.size)
    (h : Pass.transferOperands settings o owned operands released s =
      .ok ((indicators, released'), s')) :
    indicators.length = operands.length ∧
      Handing settings s.routine s'.routine s.aliases b o owned released rest
        (operands.zip indicators) := by
  induction operands generalizing s front indicators released with
  | nil =>
    cases h
    exact ⟨rfl, by simp, by simp⟩
  | cons v operands ih =>
    obtain ⟨i, others, mid, rfl,
      ⟨hroutine, haliases, hi, hothers⟩ | ⟨hnull, hothers⟩⟩ := transferOperands_cons h
    · -- with this operand an indicator goes in, and counts as released from here on
      rw [← hroutine] at hl hlist howned
      obtain ⟨hlen, hrest⟩ := ih hl hlist howned hothers
      rw [hroutine] at hl hlist howned
      rw [hroutine, haliases] at hrest
      refine ⟨by simp [hlen], List.forall_mem_cons.mpr ⟨?_, fun e he => ?_⟩,
        List.pairwise_cons.mpr ⟨fun e he hsame => ?_, hrest.once⟩⟩
      · exact .inr (hi.handedOver hl hlist)
      · exact (hrest.each e he).imp_right (·.mono fun u hu => ValueSet.mem_insert.mpr (.inr hu))
      · rcases hrest.each e he with hfresh | hhanded
        · exact .inr fun hmem => absurd (howned _ hmem) (Nat.not_lt.mpr hfresh.1)
        · -- it would alias the indicator that has just gone in
          have hapart := hhanded.unreleased i (ValueSet.mem_insert.mpr (.inl rfl))
          have htogether := AliasClasses.same_trans (AliasClasses.same_symm hsame) hi.same
          rw [hapart] at htogether
          cases htogether
    · -- with this one a null is made
      obtain ⟨rfl, haliases, x, hemit⟩ := Pass.null_eq_ok hnull
      obtain ⟨rfl, hem⟩ := Emit.operation_before hl hlist hemit
      have hold : ∀ p ∈ o :: rest, p ≠ s.routine.freshOp := by
        rintro p hp rfl
        exact hl.op?_of_listed (hlist ▸ List.mem_append_right _ hp) (op?_freshOp _)
      have hlist' : mid.routine.opsOf b = (front ++ [s.routine.freshOp]) ++ o :: rest := by
        rw [hem.opsOf_eq, if_pos rfl]
        simp
      have hsize : s.routine.values.size < mid.routine.values.size := by simp [hem.size_values]
      obtain ⟨hlen, hrest⟩ := ih (hl.operation hemit) hlist'
        (fun i hi => Nat.lt_trans (howned i hi) hsize) hothers
      rw [haliases] at hrest
      refine ⟨by simp [hlen], List.forall_mem_cons.mpr ⟨.inl ?_, fun e he => ?_⟩,
        List.pairwise_cons.mpr ⟨fun e he hsame => .inl fun hmem => ?_, hrest.once⟩⟩
      · obtain ⟨hnew, y, hy, hentry⟩ := hem.freshNull
        exact ⟨hnew, y, hy, (transferOperands_pairs (P := fun _ => True) (Q := fun _ => True)
          hothers).op?_of_some hentry⟩
      · exact (hrest.each e he).imp (·.of_emitted hem) (·.of_emitted hem hold)
      · exact absurd (howned _ hmem) (Nat.lt_irrefl _)

/-! ## The construct -/

/-- A null stays when the construct behind it is rebuilt. -/
theorem FreshNull.rebuilt {pre post : List OpId} (h : FreshNull r r' b i)
    (hreb : Rebuilt r' r'' o d c pre post indicators types) (ho : r.op? o ≠ none) :
    FreshNull r r'' b i := by
  obtain ⟨hnew, y, hy, hentry⟩ := h
  have hne : y ≠ o := by
    rintro rfl
    exact ho hy
  exact ⟨hnew, y, hy, hreb.op?_of_ne hne hentry⟩

/-- What is done inside a construct: each region on its own, then all brought to release the same.
The operands of the construct are provided for right after that. -/
def Pass.settleConstruct (settings : Settings) (treat : OpPass) (kind : ConstructKind) (o : OpId) :
    Pass Reconciled := do
  let data ← ask (·.op o)
  let site : ConstructSite := { op := o, name := data.kind.name }
  let regions ← throughRegions settings treat site kind data.regions
  let agreed ← reconcile site regions
  agreed.regions.forM sendAcquired
  agreed.displaced.forM dropIfDead
  return agreed

section Construct

variable {out : Outcome}

/-- The new construct has the operands of the old one, and behind them what comes with them. -/
theorem ConstructPass.handing
    (pass : ConstructPass f settings o d owned site outs s b front rest out s') (hw : f.WellFormed)
    (hvisited : f.Visited o) (hd : f.op? o = some d)
    (howned : ∀ i ∈ owned, i.index < pass.inside.routine.values.size) :
    s'.routine.operandsOf pass.x = pass.inside.routine.operandsOf o ++ pass.indicators ∧
      pass.indicators.length = pass.operands.length ∧
      Handing settings pass.inside.routine s'.routine pass.inside.aliases b o owned
        pass.agreed.released rest (pass.operands.zip pass.indicators) := by
  have hl := pass.threaded.wellFormed.linked
  obtain ⟨hlen, hhanding⟩ := transferOperands_handing hl pass.list howned pass.transfers
  have hentries : Pairs (fun _ => True) (fun _ => True) pass.inside pass.transferred :=
    transferOperands_pairs pass.transfers
  obtain ⟨hx, pre, post, types, hreb⟩ := pass.exists_rebuilt
  have ho : pass.inside.routine.op? o ≠ none := hl.op?_of_listed (b := b) (by simp [pass.list])
  refine ⟨?_, hlen, fun e he => ?_, hhanding.once⟩
  · -- no operand is a result of the construct, so none gets another name
    obtain ⟨e, he⟩ := Option.ne_none_iff_exists'.mp ho
    obtain rfl := Option.mem_unique pass.entry_eq (hentries.op?_of_some he)
    have hreached := pass.threaded'.reached hw (hvisited.reached hw.linked)
      ((isErased_of pass.entry_eq).trans pass.entry_live)
    have hsame : pass.entry.operands.map
        (pass.transferred.routine.renewed pass.entry.results types) = pass.entry.operands := by
      refine List.map_congr_left (fun v hv => Rebuilt.renewed_of_notMem ?_) |>.trans
        (List.map_id _)
      rw [← operandsOf_of pass.entry_eq] at hv
      rw [← resultsOf_of pass.entry_eq]
      exact pass.threaded'.wellFormed.notMem_resultsOf hreached hv
    rw [pass.routine, hx, operandsOf_of hreb.op?_fresh, List.map_append, hsame,
      pass.map_renewed hw hd, operandsOf_of he]
  · rw [pass.routine]
    exact (hhanding.each e he).imp_left (·.rebuilt hreb ho)

/-- A construct that is treated is gone through. -/
theorem AtOp.constructWalk (hat : AtOp f s o owned b front rest) (htreat : OpSpec f treat)
    (hw : f.WellFormed) (hd : f.op? o = some d) (hkind : d.kind.construct? = some kind)
    (h : Pass.throughOp settings treat o owned s = .ok (out, s')) :
    Nonempty (ConstructWalk f settings treat kind o d owned b front rest s out s') := by
  obtain ⟨τ, hentry⟩ := hat.entry hw hd
  have hclass : d.classify = .construct kind := by simp [Op.classify, hkind]
  rw [Pass.throughOp_of hentry, Op.classify_map] at h
  simp only [hclass, Pass.byClass] at h
  exact throughConstruct_stages hw hd (by simp [hkind]) htreat hat h

theorem ConstructWalk.settles
    (walk : ConstructWalk f settings treat kind o d owned b front rest s out s')
    (hat : AtOp f s o owned b front rest) (hw : f.WellFormed) (hd : f.op? o = some d) :
    Pass.settleConstruct settings treat kind o s = .ok (walk.pass.agreed, walk.pass.inside) := by
  obtain ⟨τ, hentry⟩ := hat.entry hw hd
  have hregions : Pass.throughRegions settings treat ⟨o, d.kind.name⟩ kind d.regions s =
      .ok (walk.outs, walk.mid) := walk.site_eq ▸ walk.regions
  have hreconciles : Pass.reconcile ⟨o, d.kind.name⟩ walk.outs walk.mid =
      .ok (walk.pass.agreed, walk.pass.reconciled) := by
    rw [← walk.site_eq]
    exact walk.pass.reconciles
  unfold Pass.settleConstruct
  rw [Pass.bind_of_ok (Pass.ask_eq_ok.mpr ⟨op_eq_ok.mpr hentry, rfl⟩), Pass.bind_of_ok hregions,
    Pass.bind_of_ok hreconciles, Pass.bind_of_ok walk.pass.sends, Pass.bind_of_ok walk.pass.drops]
  rfl

end Construct

/-- Ownership moves into a construct at the last use only, and only once. Wherever a run treats a
construct, every buffer operand brings an indicator: the result of a null that is made for it, or
one that the enclosing block owns. In the second case the indicator aliases the operand once the
regions are settled, no alias is touched inside the construct or behind it in the block, none has
been released in the regions, and no other operand that is an alias brings an owned indicator. A run
to the end comes to every construct that it visits. -/
theorem throughOpWithin_hands_over_once (hw : f.WellFormed) (settings : Settings) :
    (∀ fuel o d kind owned s out s', Arrives f settings fuel o owned s → f.op? o = some d →
      d.kind.construct? = some kind →
      Pass.throughOpWithin settings fuel o owned s = .ok (out, s') →
      ∃ n agreed moment b front rest nulls x operands indicators, fuel = n + 1 ∧
        Pass.settleConstruct settings (Pass.throughOpWithin settings n) kind o s =
          .ok (agreed, moment) ∧
        moment.routine.opsOf b = front ++ o :: rest ∧
        s'.routine.opsOf b = front ++ nulls ++ x :: rest ∧
        operands = (moment.routine.operandsOf o).filter moment.routine.holdsBuffer ∧
        s'.routine.operandsOf x = moment.routine.operandsOf o ++ indicators ∧
        indicators.length = operands.length ∧
        (∀ e ∈ operands.zip indicators,
          (FreshNull moment.routine s'.routine b e.2 ∧ e.2 ∉ owned) ∨
            HandedOver settings moment.routine moment.aliases o owned agreed.released rest e.1
              e.2) ∧
        ((operands.zip indicators).Pairwise fun e e' =>
          moment.aliases.same e.1 e'.1 = true → e.2 ∉ owned ∨ e'.2 ∉ owned) ∧
        (settings.transfer = false → ∀ i ∈ indicators, FreshNull moment.routine s'.routine b i)) ∧
    ∀ out final, f.threadFromRoot settings = .ok (out, final) → ∀ o, f.VisitedConstruct o →
      ∃ fuel owned s out s', Arrives f settings fuel o owned s ∧
        Pass.throughOpWithin settings fuel o owned s = .ok (out, s') := by
  constructor
  · intro fuel o d kind owned s out s' harrives hd hkind h
    obtain ⟨b, front, rest, hat⟩ := harrives.atOp hw
    obtain ⟨n, rfl⟩ : ∃ n, fuel = n + 1 := by
      cases fuel with
      | zero => cases h
      | succ n => exact ⟨n, rfl⟩
    have htreat : OpSpec f (Pass.throughOpWithin settings n) := throughOpWithin_spec hw settings n
    obtain ⟨walk⟩ := hat.constructWalk htreat hw hd hkind h
    have hrun : Run f _ s walk.pass.inside := walk.run.trans walk.pass.run_inside
    have howned : ∀ i ∈ owned, i.index < walk.pass.inside.routine.values.size := fun i hi =>
      Nat.lt_of_lt_of_le (hat.owned i hi).known hrun.keeps.size_values
    obtain ⟨hoperands, hlen, heach, honce⟩ := walk.pass.handing hw hat.visited hd howned
    refine ⟨n, _, _, b, front, rest, walk.pass.nulls, walk.pass.x, _, _, rfl,
      walk.settles hat hw hd, walk.pass.list, walk.pass.routine ▸ walk.pass.list',
      walk.pass.operands_eq, hoperands, hlen, fun e he => ?_, honce, fun hoff i hi => ?_⟩
    · -- a null is newer than anything that is owned
      exact (heach e he).imp_left fun hfresh =>
        ⟨hfresh, fun hmem => absurd (howned _ hmem) (Nat.not_lt.mpr hfresh.1)⟩
    · obtain ⟨e, he, rfl⟩ : ∃ e ∈ walk.pass.operands.zip walk.pass.indicators, e.2 = i := by
        rw [← List.mem_map, List.map_snd_zip (by omega)]
        exact hi
      refine (heach e he).resolve_right fun hhanded => ?_
      rw [hhanded.allowed] at hoff
      cases hoff
  · intro out final hroot o hvisited
    refine exists_arrival hw hroot hvisited.1 fun hne => ?_
    -- the root is a routine, not a construct
    have hcons := hvisited.2
    obtain ⟨name, hkind⟩ := hw.root_routine
    simp [hne, isConstruct, hkind, OpKind.construct?] at hcons

/-- A buffer goes into a loop twice, and is not used any more. -/
def twinned : Edit Unit := do
  let entry : InsertPoint := .atEnd ⟨0⟩
  let buffer ← Emit.alloc entry (.buffer .f32 1)
  let loop ← Emit.forLoop entry ⟨0⟩ ⟨0⟩ ⟨0⟩ [buffer, buffer]
  let _ ← Emit.yield (.atEnd loop.body) loop.carried
  let _ ← Emit.ret entry []

def twinnedRoutine : Routine := twinned.build "twinned" [.scalar .index]

/-- The first operand brings the indicator of the buffer, and for the second a null is made. -/
theorem twinnedRoutine_hands_over :
    twinnedRoutine.WellFormed ∧ ∃ owned s out s' agreed moment b rest,
      Arrives twinnedRoutine {} 5 ⟨2⟩ owned s ∧
      Pass.throughOpWithin {} 5 ⟨2⟩ owned s = .ok (out, s') ∧
      Pass.settleConstruct {} (Pass.throughOpWithin {} 4) .loop ⟨2⟩ s = .ok (agreed, moment) ∧
      (moment.routine.operandsOf ⟨2⟩).filter moment.routine.holdsBuffer = [⟨1⟩, ⟨1⟩] ∧
      HandedOver {} moment.routine moment.aliases ⟨2⟩ owned agreed.released rest ⟨1⟩ ⟨7⟩ ∧
      FreshNull moment.routine s'.routine b ⟨10⟩ := by
  have hw : twinnedRoutine.WellFormed := Routine.wellFormed_of_check (by decide +kernel)
  have henters : twinnedRoutine.Enters twinnedRoutine.root ⟨0⟩ := by decide +kernel
  have hbody : twinnedRoutine.bodyOps ⟨0⟩ = .ok ([⟨1⟩] ++ ⟨2⟩ :: []) := by decide +kernel
  have hfound : twinnedRoutine.terminator? ⟨0⟩ = .ok (some ⟨4⟩) := by decide +kernel
  have hsize : twinnedRoutine.ops.size = 5 := by decide +kernel
  have hkind : (twinnedRoutine.op? ⟨2⟩).map (·.kind) = some .forLoop := by decide +kernel
  obtain ⟨d, hd, hkind⟩ := Option.map_eq_some_iff.mp hkind
  -- the loop is come to with one indicator, and its treatment appends two operands
  obtain ⟨⟨held, s⟩, hwalks, hmem, hnot, hsettles, htreats⟩ := exists_of_check
    (x := Pass.throughOps (Pass.throughOpWithin {} 5) [⟨1⟩] ⟨∅, ∅⟩ (.start twinnedRoutine))
    (P := fun a => ⟨7⟩ ∈ a.1.owned ∧ ⟨10⟩ ∉ a.1.owned ∧
      ((Pass.settleConstruct {} (Pass.throughOpWithin {} 4) .loop ⟨2⟩ a.2).toOption.any
        fun m => decide (m.2.routine.operandsOf ⟨2⟩ = [⟨0⟩, ⟨0⟩, ⟨0⟩, ⟨1⟩, ⟨1⟩] ∧
          (m.2.routine.operandsOf ⟨2⟩).filter m.2.routine.holdsBuffer = [⟨1⟩, ⟨1⟩])) = true ∧
      ((Pass.throughOpWithin {} 5 ⟨2⟩ a.1.owned a.2).toOption.any fun t => decide (
        ∀ x ∈ t.2.routine.ops.toList, x.operands.length = 7 →
          x.operands = [⟨0⟩, ⟨0⟩, ⟨0⟩, ⟨1⟩, ⟨1⟩, ⟨7⟩, ⟨10⟩])) = true)
    (by decide +kernel)
  obtain ⟨⟨agreed, moment⟩, hsettles, hall, hbuffers⟩ := exists_of_check hsettles
  obtain ⟨⟨out, s'⟩, htreats, hnew⟩ := exists_of_check htreats
  have harrives : Arrives twinnedRoutine {} 5 ⟨2⟩ held.owned s := by
    rw [← hsize] at hwalks ⊢
    exact .body henters ⟨⟨4⟩, ∅, .start twinnedRoutine, [⟨1⟩], [], hfound, rfl, hbody, hwalks⟩
  obtain ⟨n, agreed', moment', b, front, rest, nulls, x, operands, indicators, hn, hsettles', -, -,
    hoperands, hx, hlen, heach, -⟩ := (throughOpWithin_hands_over_once hw {}).1 5 ⟨2⟩ d .loop
      held.owned s out s' harrives hd (by rw [hkind]; rfl) htreats
  obtain rfl : n = 4 := by omega
  cases hsettles.symm.trans hsettles'
  rw [hbuffers] at hoperands
  obtain rfl := hoperands
  obtain rfl : indicators = [⟨7⟩, ⟨10⟩] := by
    rw [hall] at hx
    cases hop : s'.routine.op? x with
    | none => simp [operandsOf, hop] at hx
    | some e =>
      rw [operandsOf_of hop] at hx
      have hmem : e ∈ s'.routine.ops.toList := Array.mem_toList_iff.mpr (Array.mem_of_getElem? hop)
      have hentry := hnew e hmem (by simp [hx, hlen])
      exact List.append_cancel_left (hx.symm.trans hentry)
  refine ⟨hw, held.owned, s, out, s', agreed, moment, b, rest, harrives, htreats, hsettles,
    hbuffers, ?_, ?_⟩
  · exact (heach (⟨1⟩, ⟨7⟩) (by simp)).resolve_left fun hfresh => hfresh.2 hmem
  · exact ((heach (⟨1⟩, ⟨10⟩) (by simp)).resolve_right fun hhanded => hnot hhanded.mem).1

end BufferOwnership
