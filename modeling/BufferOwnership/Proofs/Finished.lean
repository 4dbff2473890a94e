import BufferOwnership.Proofs.ShapeSpec
import BufferOwnership.Proofs.Stages

/-!
# Finished constructs

When a construct has been rebuilt, its entry, the arguments of its blocks and what their terminators
send are what they are in the end. So all that it makes alias can be read off where it is finished:
along its edges, and for arguments and results with their indicators.
-/

namespace BufferOwnership

open Routine

variable {f r g : Routine} {F : Footprint} {s s' final : Session} {b c : BlockId} {o t x : OpId}
variable {front rest body : List OpId} {d e : Op} {settings : Settings} {δ : Delta}

/-! ## What a construct makes alias -/

namespace Routine

/-- What alias along the edges of an operation from one source. -/
def edgePairs (r : Routine) (d : Op) (source : Option Nat) : List (ValueId × ValueId) :=
  (r.edgesFrom d source).flatMap fun edge => edge.sent.zip edge.received

def argsIn (r : Routine) (k : RegionId) : List ValueId := (r.blocksOf k).head?.elim [] r.argsOf

/-- The buffer arguments of a region with those behind a number of arguments. -/
def argPairs (r : Routine) (out : RegionOutcome) : List (ValueId × ValueId) :=
  (((r.argsIn out.region).take out.argCount).filter r.holdsBuffer).zip
    ((r.argsIn out.region).drop out.argCount)

/-- The buffer results of an operation with those behind a number of results. -/
def resultPairs (r : Routine) (d : Op) (count : Nat) : List (ValueId × ValueId) :=
  ((d.results.take count).filter r.holdsBuffer).zip (d.results.drop count)

variable {pairs : List (ValueId × ValueId)} {outs : List RegionOutcome} {pair : ValueId × ValueId}

theorem edgeAliases_eq_ok (hin : r.InRange) (he : r.op? x = some e) {source : Option Nat}
    (h : r.edgeAliases x source = .ok pairs) : pairs = r.edgePairs e source := by
  rw [edgeAliases, bind_of_ok (hin.flowEdges he source)] at h
  cases h
  rfl

theorem mem_regionsAliases (hin : r.InRange) (he : r.op? x = some e) {index : Nat}
    (h : r.regionsAliases x index outs = .ok pairs) :
    pair ∈ pairs ↔ (∃ k < outs.length, pair ∈ r.edgePairs e (some (index + k))) ∨
      ∃ out ∈ outs, pair ∈ r.argPairs out := by
  induction outs generalizing index pairs with
  | nil =>
    cases h
    simp
  | cons out outs ih =>
    obtain ⟨first, hfirst, h⟩ := bind_eq_ok.mp h
    obtain ⟨others, hothers, h⟩ := bind_eq_ok.mp h
    cases h
    obtain ⟨edges, hedges, hfirst⟩ := bind_eq_ok.mp hfirst
    obtain ⟨args, hargs, hfirst⟩ := bind_eq_ok.mp hfirst
    obtain ⟨buffers, hbuffers, hfirst⟩ := bind_eq_ok.mp hfirst
    cases hfirst
    have hargPairs : buffers.zip (args.drop out.argCount) = r.argPairs out := by
      rw [buffers_eq_ok hbuffers, regionArgs_eq_ok hargs]
      rfl
    rw [List.mem_append, List.mem_append, ih hothers, hargPairs, edgeAliases_eq_ok hin he hedges]
    -- the first region has the first index, and the others those behind it
    have hsplit : (∃ k < (out :: outs).length, pair ∈ r.edgePairs e (some (index + k))) ↔
        pair ∈ r.edgePairs e (some index) ∨
          ∃ k < outs.length, pair ∈ r.edgePairs e (some (index + 1 + k)) := by
      constructor
      · rintro ⟨k, hk, hpair⟩
        cases k with
        | zero => exact .inl hpair
        | succ k => exact .inr ⟨k, by simpa using hk, by rwa [Nat.add_assoc, Nat.add_comm 1 k]⟩
      · rintro (hpair | ⟨k, hk, hpair⟩)
        · exact ⟨0, by simp, hpair⟩
        · exact ⟨k + 1, by simpa using hk, by rwa [← Nat.add_assoc, Nat.add_right_comm]⟩
    rw [hsplit, List.exists_mem_cons_iff]
    exact or_or_or_comm

/-- What a construct makes alias, in one list. -/
theorem mem_constructAliases (hin : r.InRange) (he : r.op? x = some e) {count : Nat}
    (houts : outs.length = e.regions.length)
    (h : r.constructAliases x count outs = .ok pairs) :
    pair ∈ pairs ↔ (∃ source, pair ∈ r.edgePairs e source) ∨
      (∃ out ∈ outs, pair ∈ r.argPairs out) ∨ pair ∈ r.resultPairs e count := by
  obtain ⟨e', he', h⟩ := bind_eq_ok.mp h
  obtain rfl := Option.mem_unique he (op_eq_ok.mp he')
  obtain ⟨onEntry, hentry, h⟩ := bind_eq_ok.mp h
  obtain ⟨inRegions, hregions, h⟩ := bind_eq_ok.mp h
  obtain ⟨buffers, hbuffers, h⟩ := bind_eq_ok.mp h
  cases h
  have hresults : buffers.zip (e.results.drop count) = r.resultPairs e count := by
    rw [buffers_eq_ok hbuffers]
    rfl
  rw [List.mem_append, List.mem_append, mem_regionsAliases hin he hregions, hresults,
    edgeAliases_eq_ok hin he hentry]
  -- there are no edges from regions that are not there
  have hsources : (∃ source, pair ∈ r.edgePairs e source) ↔
      pair ∈ r.edgePairs e none ∨ ∃ k < outs.length, pair ∈ r.edgePairs e (some (0 + k)) := by
    constructor
    · rintro ⟨source, hpair⟩
      by_cases hsource : source ∈ edgeSources e.regions.length
      · rw [edgeSources] at hsource
        rcases List.mem_cons.mp hsource with rfl | hsource
        · exact .inl hpair
        · obtain ⟨k, hk, rfl⟩ := List.mem_map.mp hsource
          exact .inr ⟨k, by rw [houts]; exact List.mem_range.mp hk, by rwa [Nat.zero_add]⟩
      · rw [edgePairs, edgesFrom_of_not_source hsource] at hpair
        cases hpair
    · rintro (hpair | ⟨k, -, hpair⟩)
      · exact ⟨_, hpair⟩
      · exact ⟨_, hpair⟩
  rw [hsources, or_assoc, or_assoc, or_assoc]

end Routine

/-! ## Blocks of finished constructs -/

/-- The operation in which a block ends stays there. -/
theorem Threaded.exists_front (ht : Threaded f s) (hlist : f.opsOf b = body ++ [t])
    (hterm : f.isTerminator t = true) : ∃ front, s.routine.opsOf b = front ++ [t] := by
  obtain ⟨δ, hδ⟩ := ht.embedded
  have hop : δ.op t = t := by
    apply hδ.change.op_eq_self
    by_contra hne
    rw [isTerminator_of_isConstruct (by simpa using hne)] at hterm
    cases hterm
  apply List.getLast?_eq_some_iff.mp
  rw [hδ.change.last, hlist]
  simp [hop]

theorem Threaded.lastTerminator? (ht : Threaded f s) (hl : f.Linked)
    (hlist : f.opsOf b = body ++ [t]) (hterm : f.isTerminator t = true) :
    s.routine.lastTerminator? b = some t := by
  obtain ⟨front, hfront⟩ := ht.exists_front hlist hterm
  have hf : f.op? t ≠ none := hl.op?_of_listed (b := b) (by simp [hlist])
  rw [Routine.lastTerminator?, hfront, List.getLast?_concat]
  simp [isTerminator, ht.kind? hf, show (f.kind? t).any OpKind.isTerminator = true from hterm]

/-- All arguments are there once a block has those for its indicators. -/
theorem Kept.argsOf_eq (h : Kept r g)
    (hlength : (g.argsOf c).length = (r.argsOf c).length) : g.argsOf c = r.argsOf c :=
  ((h.args c).eq_of_length hlength.symm).symm

/-- What is done in the end is done for everything that is treated. -/
theorem Done.of_root (h : Done f r f.root) (hvisited : f.Visited o) : Done f r o :=
  fun p hp => h p (hvisited.trans hp)

/-- A construct stands in a block. -/
theorem Routine.VisitedConstruct.listed (h : f.VisitedConstruct o) (hw : f.WellFormed) :
    ∃ b, o ∈ f.opsOf b := by
  rcases h.1.cases_tail with rfl | ⟨m, -, b, body, t, -, hlist, ho⟩
  · cases h.2.symm.trans hw.isConstruct_root
  · exact ⟨b, by simp [hlist, ho]⟩

section Finished

variable (hvisited : f.VisitedConstruct o) (hdone : Done f s.routine o)
variable (hrun : Run f F s final) (hfinal : Done f final.routine f.root)
include hvisited hdone hrun hfinal

/-- The arguments of a finished construct's blocks are the last ones. -/
theorem Done.argsOf_last (henters : f.Enters o c) :
    final.routine.argsOf c = s.routine.argsOf c := by
  apply hrun.keeps.argsOf_eq
  rw [((hdone o .refl hvisited.2).2 c henters).args,
    ((hfinal.of_root hvisited.1 o .refl hvisited.2).2 c henters).args]

/-- What the blocks of a finished construct send is the last of it. -/
theorem Done.operands_last (hw : f.WellFormed) (ht : Threaded f s)
    (hcleared : Cleared f s.routine o) (henters : f.Enters o c) (hlist : f.opsOf c = body ++ [t]) :
    final.routine.operandsOf t = s.routine.operandsOf t := by
  obtain ⟨δ, hδ⟩ := ht.embedded
  have hholder := henters.holder? hw.linked
  have hparent := (hw.linked.op_listed t c).mp (by simp [hlist])
  have hreached : f.Reached t :=
    (hvisited.1.reached hw.linked).step ((up?_of_parent? hparent).trans hholder)
  obtain ⟨hlive, hlength⟩ := ((hdone o .refl hvisited.2).2 c henters).operands body t hlist
  obtain ⟨hlive', hlength'⟩ :=
    ((hfinal.of_root hvisited.1 o .refl hvisited.2).2 c henters).operands body t hlist
  -- the operations before it in the block are done
  have hcleared' : Cleared f s.routine t := by
    apply hcleared.in_block hw.linked hholder hlist
    intro p hp hvisited'
    exact (hdone p (.single ⟨c, body, t, henters, hlist, hp⟩) hvisited'.2).1
  have hsettled := hcleared'.operands_settled hδ ht hw hreached
  rw [hδ.op_eq_self hlive] at hsettled
  have hf := hw.op?_of_reached hreached
  have hnot : ¬ f.VisitedConstruct t := by
    intro hcons
    rw [(hfinal t hcons.1 hcons.2).1] at hlive'
    cases hlive'
  obtain ⟨extra, hextra, -⟩ := hrun.operands_last ht hw (ht.op? hf) hnot hsettled
  have hnil : extra = [] := by
    have hsum := congrArg List.length hextra
    rw [List.length_append] at hsum
    exact List.eq_nil_of_length_eq_zero (by omega)
  rw [hextra, hnil, List.append_nil]

end Finished

/-! ## Where a construct is finished -/

theorem Sited.of_map {gs : List RegionId} {outs outs' : List RegionOutcome} (h : Sited f gs outs)
    (hregions : outs'.map (·.region) = outs.map (·.region))
    (hargs : outs'.map (·.argCount) = outs.map (·.argCount)) : Sited f gs outs' := by
  refine ⟨hregions.trans h.regions, fun out' hout' => ?_⟩
  obtain ⟨k, hk⟩ := List.mem_iff_getElem?.mp hout'
  have hregion := congrArg (·[k]?) hregions
  have harg := congrArg (·[k]?) hargs
  simp only [List.getElem?_map, hk, Option.map_some] at hregion harg
  obtain ⟨out, hout, hsame⟩ := Option.map_eq_some_iff.mp hregion.symm
  rw [hout] at harg
  have hcount : out'.argCount = out.argCount := Option.some.inj harg
  rw [hcount, ← hsame]
  exact h.args out (List.mem_of_getElem? hout)

section Pass

variable {owned : ValueSet} {site : ConstructSite} {outs : List RegionOutcome} {out : Outcome}
variable (pass : ConstructPass f settings o d owned site outs s b front rest out s')
variable (hw : f.WellFormed) (ht : Threaded f s) (hvisited : f.VisitedConstruct o)
include pass hw hvisited

/-- The name that a construct gets where it is finished. -/
theorem ConstructPass.exists_embedding :
    ∃ δ, Embedding f s'.routine δ ∧ δ.op o = pass.x ∧ δ.op o ≠ o := by
  obtain ⟨δ, hδ, hop⟩ := pass.renamed
  rw [← pass.routine] at hδ
  refine ⟨δ, hδ, hop, hδ.op_ne_of_gone hw (hvisited.1.reached hw.linked) ?_⟩
  rw [pass.routine]
  exact pass.gone

variable (hd : f.op? o = some d) (hcleared : Cleared f s.routine o)
variable (hrun : Run f F s' final)
include ht hrun

/-- It is the last one. -/
theorem ConstructPass.op_eq (hδ : Embedding f final.routine δ) : δ.op o = pass.x := by
  obtain ⟨ε, hε, hop, hne⟩ := pass.exists_embedding hw hvisited
  obtain ⟨c, hc⟩ := hvisited.listed hw
  rw [← hop]
  exact hε.op_last (ht.run hw pass.run) hw hrun hc hne hδ

include hd hcleared

/-- The entry with which a construct is finished is the last one. -/
theorem ConstructPass.entry_last : ∃ e, s'.routine.op? pass.x = some e ∧
    final.routine.op? pass.x = some e ∧ e.erased = false ∧ e.regions = d.regions := by
  obtain ⟨δ, hδ, hop, hne⟩ := pass.exists_embedding hw hvisited
  have ht' := ht.run hw pass.run
  have hreached := hvisited.1.reached hw.linked
  obtain ⟨e, he, hgrown⟩ := hδ.change.image_of_live hd (hw.live o hreached) (hδ.lossless o)
  have hcons : e.kind.construct?.isSome = true := by
    have hcons := hvisited.2
    rwa [isConstruct_of hd, ← hgrown.kind] at hcons
  have hsettled := (hcleared.keep pass.run.keeps).operands_settled hδ ht' hw hreached
  rw [operandsOf_of he] at hsettled
  have hnone := (hδ.change.renamed o hne).2.2.1
  rw [hop] at he hnone
  refine ⟨e, he, ?_, hgrown.live, hgrown.regions⟩
  apply hrun.entry_last ht' hw he hgrown.live _ _ _ hsettled
  · exact fun hx => hw.op?_of_reached (hx.1.reached hw.linked) hnone
  · cases hkind : e.kind <;> simp_all [OpKind.construct?, OpKind.isTerminator]
  · intro hkind
    simp [hkind, OpKind.construct?] at hcons

omit hvisited hw hcleared hrun ht in
/-- How each region of a construct ends that is finished. -/
theorem ConstructPass.exists_end (hsited : Sited f d.regions outs)
    (hcons : d.kind.construct?.isSome = true) {k : RegionId} (hk : k ∈ d.regions) :
    f.blocksOf k = [] ∨ ∃ c body t, f.blocksOf k = [c] ∧ f.Enters o c ∧
      f.opsOf c = body ++ [t] ∧ f.isTerminator t = true := by
  rw [← hsited.regions, ← pass.agrees.regions] at hk
  obtain ⟨out', hout', rfl⟩ := List.mem_map.mp hk
  rcases pass.agrees.ready out' hout' with ⟨hnone, -⟩ | ⟨c, body, t, front', hprepared⟩
  · exact .inl hnone
  · rw [pass.agrees.regions, hsited.regions] at hk
    exact .inr ⟨c, body, t, hprepared.block, enters_of_construct hd hcons hk hprepared.block,
      hprepared.walked.original, hprepared.walked.terminator⟩

variable (hsited : Sited f d.regions outs) (hcons : d.kind.construct?.isSome = true)
variable (hdone : Done f s'.routine o) (hfinal : Done f final.routine f.root)
include hdone hfinal hsited hcons

/-- The edges of a construct that is finished are the last ones. -/
theorem ConstructPass.edgePairs_last (hregions : e.regions = d.regions) (source : Option Nat) :
    final.routine.edgePairs e source = s'.routine.edgePairs e source := by
  have ht' := ht.run hw pass.run
  have htf := ht'.run hw hrun
  have hends := fun k hk => pass.exists_end hd hsited hcons (k := k) hk
  have hblocks : ∀ k, final.routine.blocksOf k = s'.routine.blocksOf k := by
    intro k
    rw [htf.blocksOf, ht'.blocksOf]
  rw [edgePairs, edgePairs, edgesFrom_congr hblocks]
  -- neither the arguments of its blocks nor what these send changes any more
  · intro index
    rw [hregions, argsAt, argsAt, blockAt?, blockAt?]
    cases hk : d.regions[index]? with
    | none => rfl
    | some k =>
      rw [Option.bind_some, Option.bind_some, htf.blocksOf, ht'.blocksOf]
      rcases hends k (List.mem_of_getElem? hk) with hnone | ⟨c, body, t, hblock, henters, -⟩
      · rw [hnone]
        rfl
      · rw [hblock]
        exact hdone.argsOf_last hvisited hrun hfinal henters
  · intro index
    rw [hregions, sentAt?, sentAt?, blockAt?, blockAt?]
    cases hk : d.regions[index]? with
    | none => rfl
    | some k =>
      rw [Option.bind_some, Option.bind_some, htf.blocksOf, ht'.blocksOf]
      rcases hends k (List.mem_of_getElem? hk) with
        hnone | ⟨c, body, t, hblock, henters, hlist, hterm⟩
      · rw [hnone]
        rfl
      · have hsent := hdone.operands_last hvisited hrun hfinal hw ht'
          (hcleared.keep pass.run.keeps) henters hlist
        rw [hblock, List.head?_cons, Option.bind_some, Option.bind_some,
          htf.lastTerminator? hw.linked hlist hterm, ht'.lastTerminator? hw.linked hlist hterm,
          Option.map_some, Option.map_some, hsent]

omit hcleared in
/-- So are the arguments for the indicators of its blocks. -/
theorem ConstructPass.argPairs_last {pair : ValueId × ValueId} :
    (∃ out ∈ pass.agreed.regions, pair ∈ s'.routine.argPairs out) ↔
      ∃ c, f.Enters o c ∧ pair ∈ f.accompanied final.routine c := by
  have ht' := ht.run hw pass.run
  have hsited' := hsited.of_map pass.agrees.regions pass.agrees.args
  -- a region with a block has its arguments in front of those for indicators
  have hpairs : ∀ {out c}, f.blocksOf out.region = [c] → out.argCount = (f.argsOf c).length →
      f.Enters o c → s'.routine.argPairs out = f.accompanied final.routine c := by
    intro out c hblock hcount henters
    obtain ⟨δ, hδ⟩ := ht'.embedded
    obtain ⟨extra, hextra, -⟩ := hδ.change.args c
    have hbuffers : (f.argsOf c).filter s'.routine.holdsBuffer =
        (f.argsOf c).filter f.holdsBuffer :=
      List.filter_congr fun v hv => hδ.change.keeps.holdsBuffer_eq
        (Visible.known hw.linked (.argument hv : f.Visible c [] v))
    rw [accompanied, hdone.argsOf_last hvisited hrun hfinal henters, argPairs, argsIn,
      ht'.blocksOf, hblock, hcount]
    simp only [List.head?_cons, Option.elim_some, hextra, List.take_left, List.drop_left, hbuffers]
  constructor
  · rintro ⟨out, hout, hpair⟩
    have hregion : out.region ∈ d.regions := hsited'.regions ▸ List.mem_map_of_mem hout
    rcases hsited'.args out hout with ⟨hnone, -⟩ | ⟨c, hblock, hcount⟩
    · simp [argPairs, argsIn, ht'.blocksOf, hnone] at hpair
    · have henters := enters_of_construct hd hcons hregion hblock
      exact ⟨c, henters, hpairs hblock hcount henters ▸ hpair⟩
  · rintro ⟨c, henters, hpair⟩
    obtain ⟨k, hk, hblock⟩ := exists_region_of_enters hd hcons henters
    rw [← hsited'.regions] at hk
    obtain ⟨out, hout, rfl⟩ := List.mem_map.mp hk
    rcases hsited'.args out hout with ⟨hnone, -⟩ | ⟨c', hblock', hcount⟩
    · simp [hnone] at hblock
    · obtain rfl : c = c' := by simpa [hblock'] using hblock.symm
      exact ⟨out, hout, hpairs hblock' hcount henters ▸ hpair⟩

/-- What a construct makes alias where it is finished can be read off the result. -/
theorem ConstructPass.exists_pairs : ∃ e pairs, final.routine.op? pass.x = some e ∧
    s.aliases.Joins pairs s'.aliases ∧ ∀ pair, pair ∈ pairs ↔
      (∃ source, pair ∈ final.routine.edgePairs e source) ∨
      (∃ c, f.Enters o c ∧ pair ∈ f.accompanied final.routine c) ∨
      pair ∈ final.routine.resultPairs e d.results.length := by
  have ht' := ht.run hw pass.run
  obtain ⟨e, he, hlast, -, hregions⟩ := pass.entry_last hw ht hvisited hd hcleared hrun
  obtain ⟨pairs, hpairs, haliases⟩ := pass.joins
  rw [← pass.routine] at hpairs
  have hlength : pass.agreed.regions.length = e.regions.length := by
    rw [hregions, ← hsited.regions, ← pass.agrees.regions, List.length_map]
  -- up to the rebuild only records are forgotten, and no classes are joined
  have hjoins : s.aliases.Joins pairs s'.aliases := by
    have hfirst : s.aliases.Joins [] pass.transferred.aliases :=
      .of_links (pass.aliases ▸ pass.forgets.links)
    rw [haliases]
    exact hfirst.trans (.unionAll _ pairs)
  have hresults : final.routine.resultPairs e d.results.length =
      s'.routine.resultPairs e d.results.length := by
    refine congrArg₂ List.zip (List.filter_congr fun v hv => ?_) rfl
    apply hrun.keeps.holdsBuffer_eq
    apply ht'.wellFormed.linked.result_known (o := pass.x)
    rw [resultsOf_of he]
    exact List.mem_of_mem_take hv
  refine ⟨e, pairs, hlast, hjoins, fun pair => ?_⟩
  rw [mem_constructAliases ht'.wellFormed.linked.inRange he hlength hpairs, hresults,
    pass.argPairs_last hw ht hvisited hd hrun hsited hcons hdone hfinal]
  simp only [pass.edgePairs_last hw ht hvisited hd hcleared hrun hsited hcons hdone hfinal hregions]

end Pass

end BufferOwnership
