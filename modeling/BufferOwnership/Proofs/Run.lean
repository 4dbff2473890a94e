import BufferOwnership.Ownership.Threading
import BufferOwnership.Proofs.Aliases
import BufferOwnership.Proofs.Edits

/-!
# Runs

What ownership threading does to a session is a run of steps. From one step to the next the session
stays `Threaded`: its routine is well formed and comes from the original one by a single change, and
every recorded indicator is a companion of its buffer and in its class. A run stays within a
footprint; outside of it operations keep their operands, blocks their operations and arguments.
-/

namespace BufferOwnership

open Routine

/-! ## Classes -/

namespace Op

variable (d : Op) (τ : ValueId → ValueId)
variable {v : ValueId}

theorem allocated_map : ({ d with operands := d.operands.map τ } : Op).allocated = d.allocated := by
  simp only [allocated, OpKind.effects, List.filterMap_filterMap]
  refine List.filterMap_congr fun spec _ => ?_
  cases spec with
  | allocatesResult slot => rfl
  | freesOperand slot =>
    cases h : d.operands[slot]? <;> simp [EffectSpec.resolve?, h, Effect.allocated?]

theorem freed_map :
    ({ d with operands := d.operands.map τ } : Op).freed = d.freed.map τ := by
  simp only [freed, OpKind.effects, List.filterMap_filterMap, List.map_filterMap]
  refine List.filterMap_congr fun spec _ => ?_
  cases spec with
  | allocatesResult slot =>
    cases h : d.results[slot]? <;> simp [EffectSpec.resolve?, h, Effect.freed?]
  | freesOperand slot =>
    cases h : d.operands[slot]? <;> simp [EffectSpec.resolve?, h, Effect.freed?]

/-- Other names for the operands do not change the class. -/
theorem classify_map : ({ d with operands := d.operands.map τ } : Op).classify =
    match d.classify with
    | .effects allocated freed => .effects allocated (freed.map τ)
    | other => other := by
  unfold classify
  rw [allocated_map, freed_map]
  cases d.kind.construct? with
  | some kind => rfl
  | none =>
    simp only [List.isEmpty_map]
    split
    · rfl
    · split
      · rfl
      · split <;> rfl

variable {d}

/-- The effects of an operation allocate results and free operands. -/
theorem mem_of_effect {effect : Effect} (h : effect ∈ d.kind.effects d.operands d.results) :
    (effect.allocated? = some v → v ∈ d.results) ∧ (effect.freed? = some v → v ∈ d.operands) := by
  obtain ⟨spec, -, hspec⟩ := List.mem_filterMap.mp h
  cases spec with
  | allocatesResult slot | freesOperand slot =>
    obtain ⟨w, hw, rfl⟩ := Option.map_eq_some_iff.mp hspec
    simpa [Effect.allocated?, Effect.freed?] using fun e : w = v => e ▸ List.mem_of_getElem? hw

theorem mem_results_of_mem_allocated (h : v ∈ d.allocated) : v ∈ d.results := by
  obtain ⟨effect, heffect, hv⟩ := List.mem_filterMap.mp h
  exact (mem_of_effect heffect).1 hv

theorem mem_operands_of_mem_freed (h : v ∈ d.freed) : v ∈ d.operands := by
  obtain ⟨effect, heffect, hv⟩ := List.mem_filterMap.mp h
  exact (mem_of_effect heffect).2 hv

/-- What the class of an operation says about it. -/
theorem classify_spec (d : Op) :
    match d.classify with
    | .construct kind => d.kind.construct? = some kind
    | .effects allocated freed =>
      d.kind.construct? = none ∧ allocated = d.allocated ∧ freed = d.freed
    | .routine => ∃ name, d.kind = .routine name
    | .unknownRegions => d.kind.construct? = none
    | .plain => d.kind.construct? = none := by
  unfold classify
  cases hkind : d.kind.construct? with
  | some kind => rfl
  | none =>
    by_cases heffects : (!d.allocated.isEmpty || !d.freed.isEmpty) = true
    · simp [heffects]
    · simp only [heffects]
      cases hname : d.kind <;> by_cases hregions : d.regions.isEmpty = true <;> simp [hregions]

theorem classify_of_routine {name : String} (h : d.kind = .routine name) :
    d.classify = .routine := by
  simp [classify, h, OpKind.construct?, allocated, freed, OpKind.effects, OpKind.effectSpecs]

/-- Only operations that do nothing else have effects. -/
theorem kind_of_effects (h : d.allocated ≠ [] ∨ d.freed ≠ []) :
    d.kind.construct? = none ∧ d.kind.isTerminator = false ∧ d.kind ≠ .own ∧ d.kind ≠ .null ∧
      ∀ n, d.kind ≠ .retain n := by
  cases hkind : d.kind <;> simp_all [OpKind.construct?, OpKind.isTerminator, allocated, freed,
    OpKind.effects, OpKind.effectSpecs]

theorem classify_of_effects (h : d.allocated ≠ [] ∨ d.freed ≠ []) :
    d.classify = .effects d.allocated d.freed := by
  have heffects : (!d.allocated.isEmpty || !d.freed.isEmpty) = true := by simpa using h
  simp [classify, (kind_of_effects h).1, heffects]

end Op

/-! ## What is visited

The operations that threading treats can be read off the original routine. -/

namespace Routine

/-- Treating an operation goes through a block: the single block of each region of a construct,
the body of a routine, and every block of an operation with regions of unknown control flow. -/
def Enters (f : Routine) (o : OpId) (b : BlockId) : Prop :=
  ∃ d, f.op? o = some d ∧
    match d.classify with
    | .construct _ => ∃ g ∈ d.regions, f.blocksOf g = [b]
    | .routine => ∃ g, d.regions.head? = some g ∧ f.blocksOf g = [b]
    | .unknownRegions => ∃ g ∈ d.regions, b ∈ f.blocksOf g
    | .effects .. => False
    | .plain => False

/-- Treating one operation leads to treating another: all operations of a block but the last. -/
def Leads (f : Routine) (o p : OpId) : Prop :=
  ∃ b body t, f.Enters o b ∧ f.opsOf b = body ++ [t] ∧ p ∈ body

/-- An operation is treated in the course of treating another. -/
def VisitedFrom (f : Routine) : OpId → OpId → Prop := Relation.ReflTransGen f.Leads

def Visited (f : Routine) (o : OpId) : Prop := f.VisitedFrom f.root o

/-- Structured control flow that is treated, and so gets indicators. -/
def VisitedConstruct (f : Routine) (o : OpId) : Prop := f.Visited o ∧ f.isConstruct o = true

/-- A block of a treated construct. -/
def Opened (f : Routine) (b : BlockId) : Prop := ∃ o, f.VisitedConstruct o ∧ f.Enters o b

/-- The last operation of a block of a treated construct. -/
def Closes (f : Routine) (t : OpId) : Prop := ∃ b body, f.Opened b ∧ f.opsOf b = body ++ [t]

variable {f : Routine} {o p : OpId} {b : BlockId} {d : Op}

/-- A block that threading goes into is in one of the regions. -/
theorem Enters.mem_blocks (h : f.Enters o b) (hd : f.op? o = some d) :
    b ∈ d.regions.flatMap f.blocksOf := by
  obtain ⟨d', hd', hb⟩ := h
  obtain rfl := Option.mem_unique hd hd'
  rw [List.mem_flatMap]
  split at hb
  · obtain ⟨g, hg, hb⟩ := hb
    exact ⟨g, hg, by simp [hb]⟩
  · obtain ⟨g, hg, hb⟩ := hb
    exact ⟨g, List.mem_of_mem_head? hg, by simp [hb]⟩
  · exact hb
  · exact hb.elim
  · exact hb.elim

theorem Enters.holder? (hl : f.Linked) (h : f.Enters o b) : f.holder? b = some o := by
  obtain ⟨d, hd, -⟩ := id h
  rw [hl.holder?_iff, regionsOf_of hd]
  exact List.mem_flatMap.mp (h.mem_blocks hd)

/-- Nothing is entered but what has a class with blocks to go through. -/
theorem Enters.classify (h : f.Enters o b) (hd : f.op? o = some d) :
    d.classify ≠ .plain ∧ ∀ allocated freed, d.classify ≠ .effects allocated freed := by
  obtain ⟨d', hd', hb⟩ := h
  obtain rfl := Option.mem_unique hd hd'
  constructor
  · intro hclass
    rw [hclass] at hb
    exact hb
  · intro allocated freed hclass
    rw [hclass] at hb
    exact hb

theorem isConstruct_of_classify (hd : f.op? o = some d)
    (hclass : ∀ kind, d.classify ≠ .construct kind) : f.isConstruct o = false := by
  rw [isConstruct_of hd]
  cases hkind : d.kind.construct? with
  | none => rfl
  | some kind => exact absurd (by simp [Op.classify, hkind]) (hclass kind)

theorem isConstruct_of_unknown (hd : f.op? o = some d) (hclass : d.classify = .unknownRegions) :
    f.isConstruct o = false :=
  isConstruct_of_classify hd (by simp [hclass])

theorem Leads.up? (hl : f.Linked) (h : f.Leads o p) : f.up? p = some o := by
  obtain ⟨b, body, t, henters, hlist, hp⟩ := h
  have hparent := (hl.op_listed p b).mp (by simp [hlist, hp])
  rw [up?_of_parent? hparent, henters.holder? hl]

theorem VisitedFrom.inside (hl : f.Linked) (h : f.VisitedFrom o p) : f.Inside o p := by
  induction h with
  | refl => exact .refl
  | tail _ hstep ih => exact ih.step (hstep.up? hl)

theorem Visited.reached (hl : f.Linked) (h : f.Visited o) : f.Reached o := VisitedFrom.inside hl h

instance Enters.decidable (f : Routine) (o : OpId) (b : BlockId) : Decidable (f.Enters o b) :=
  match hd : f.op? o with
  | none => isFalse fun ⟨d, hd', _⟩ => by cases hd.symm.trans hd'
  | some d =>
    have : Decidable (match d.classify with
        | .construct _ => ∃ g ∈ d.regions, f.blocksOf g = [b]
        | .routine => ∃ g, d.regions.head? = some g ∧ f.blocksOf g = [b]
        | .unknownRegions => ∃ g ∈ d.regions, b ∈ f.blocksOf g
        | .effects .. => False
        | .plain => False) :=
      match d.classify with
      | .construct _ => inferInstanceAs (Decidable (∃ g ∈ d.regions, f.blocksOf g = [b]))
      | .routine => inferInstanceAs (Decidable (∃ g ∈ d.regions.head?, f.blocksOf g = [b]))
      | .unknownRegions => inferInstanceAs (Decidable (∃ g ∈ d.regions, b ∈ f.blocksOf g))
      | .effects .. => isFalse id
      | .plain => isFalse id
    decidable_of_iff _ ⟨fun h => ⟨d, hd, h⟩, fun ⟨d', hd', h⟩ => by
      obtain rfl : d = d' := Option.some.inj (hd.symm.trans hd')
      exact h⟩

theorem leads_iff : f.Leads o p ↔ ∃ b ∈ (f.regionsOf o).flatMap f.blocksOf,
    f.Enters o b ∧ p ∈ (f.opsOf b).dropLast := by
  constructor
  · rintro ⟨b, body, t, henters, hlist, hp⟩
    obtain ⟨d, hd, -⟩ := id henters
    refine ⟨b, ?_, henters, by simpa [hlist] using hp⟩
    rw [regionsOf_of hd]
    exact henters.mem_blocks hd
  · rintro ⟨b, -, henters, hp⟩
    have hne : f.opsOf b ≠ [] := by
      intro hnil
      simp [hnil] at hp
    exact ⟨b, _, _, henters, (List.dropLast_concat_getLast hne).symm, hp⟩

instance Leads.decidable (f : Routine) (o p : OpId) : Decidable (f.Leads o p) :=
  decidable_of_iff _ leads_iff.symm

end Routine

/-! ## Steps -/

/-- Where a run may change a routine: operations that may be renamed or get operands, blocks that
may get other operations, and blocks that may get arguments. -/
structure Footprint where
  ops : OpId → Prop
  blocks : BlockId → Prop
  args : BlockId → Prop

def Footprint.none : Footprint where
  ops _ := False
  blocks _ := False
  args _ := False

def Footprint.all : Footprint where
  ops _ := True
  blocks _ := True
  args _ := True

/-- A value is allocated by a treated operation of a block. -/
def Routine.AllocatedIn (f : Routine) (b : BlockId) (v : ValueId) : Prop :=
  ∃ p d, f.Visited p ∧ f.op? p = some d ∧ f.parent? p = some b ∧ v ∈ d.allocated

/-- What is known of an operation that the original routine has not. Its results are indicators,
unless it is a construct, and an own stands in the block in which its buffer is allocated. -/
structure Made (f r : Routine) (x : OpId) : Prop where
  typed : r.isConstruct x = false → ∀ v ∈ r.resultsOf x, r.ty? v = some .ownership
  owns : r.kind? x = some .own → ∃ b v, r.parent? x = some b ∧ r.operandsOf x = [v] ∧
    f.AllocatedIn b v

/-- A change that threading makes: sound, within a footprint, and only at treated constructs. -/
structure Legal (f : Routine) (F : Footprint) (r r' : Routine) (δ : Delta) : Prop where
  change : Change r r' δ
  sound : Change.Sound r r' δ
  linked : r'.Linked
  later : Change.Later f δ
  ops : ∀ p, δ.op p ≠ p ∨ δ.added p ≠ [] → F.ops p
  blocks : ∀ b, ¬ F.blocks b → r'.opsOf b = r.opsOf b
  args : ∀ b, ¬ F.args b → r'.argsOf b = r.argsOf b
  renamed : ∀ p, δ.op p ≠ p → f.VisitedConstruct p
  added : ∀ p, δ.added p ≠ [] → f.VisitedConstruct p ∨ f.Closes p
  opened : ∀ b, r'.argsOf b ≠ r.argsOf b → f.Opened b
  made : ∀ x, r.op? x = none → r'.op? x ≠ none → Made f r' x

/-- An indicator recorded for a value is an argument, or an own of this value has made it. -/
structure Recorded (f r : Routine) (v i : ValueId) : Prop where
  companion : r.Companion v i
  typed : r.ty? i = some .ownership
  later : f.values.size ≤ i.index
  made : (∃ b, i ∈ r.argsOf b) ∨ ∃ x, f.op? x = none ∧ r.kind? x = some .own ∧
    i ∈ r.resultsOf x ∧ r.operandsOf x = [v]

/-- One step: a legal change of the routine, or a change of the recorded indicators. -/
inductive Step (f : Routine) (F : Footprint) : Session → Session → Prop
  | edit {s s' : Session} (δ : Delta) :
      Legal f F s.routine s'.routine δ → s'.aliases = s.aliases → Step f F s s'
  | forget {s s' : Session} :
      s'.routine = s.routine → s'.aliases.indicators ⊆ s.aliases.indicators →
      s.aliases.Grows s'.aliases → Step f F s s'
  | record {s s' : Session} (v i : ValueId) :
      s'.routine = s.routine → s'.aliases.indicators ⊆ (v, i) :: s.aliases.indicators →
      (∀ w, (w, i) ∉ s.aliases.indicators) → Recorded f s.routine v i → s.aliases.Grows s'.aliases →
      (s.aliases.Sound → s'.aliases.same v i = true) → Step f F s s'

def Run (f : Routine) (F : Footprint) : Session → Session → Prop :=
  Relation.ReflTransGen (Step f F)

/-! ## Threaded sessions -/

/-- A routine comes from the original one by a change that loses nothing and that touches only
treated constructs, their blocks and the terminators there. -/
structure Embedding (f r : Routine) (δ : Delta) : Prop where
  change : Change f r δ
  lossless : ∀ p, δ.lost p = false
  renamed : ∀ p, δ.op p ≠ p → f.VisitedConstruct p
  added : ∀ p, δ.added p ≠ [] → f.VisitedConstruct p ∨ f.Closes p
  typed : ∀ p, ∀ v ∈ δ.added p, r.ty? v = some .ownership ∧ f.values.size ≤ v.index
  opened : ∀ b, r.argsOf b ≠ f.argsOf b → f.Opened b
  made : ∀ x, f.op? x = none → r.op? x ≠ none → Made f r x

/-- What holds of a session all along. -/
structure Threaded (f : Routine) (s : Session) : Prop where
  wellFormed : s.routine.WellFormed
  embedded : ∃ δ, Embedding f s.routine δ
  recorded : ∀ v i, (v, i) ∈ s.aliases.indicators → Recorded f s.routine v i
  distinct : ∀ v w i, (v, i) ∈ s.aliases.indicators → (w, i) ∈ s.aliases.indicators → v = w
  classes : s.aliases.Sound
  joined : ∀ v i, (v, i) ∈ s.aliases.indicators → s.aliases.same v i = true

theorem Change.refl (r : Routine) : Change r r {} where
  root := rfl
  value _ _ hV := hV
  home _ := rfl
  blocksOf _ := rfl
  owner g := by simp
  args b := ⟨[], by simp, by simp⟩
  lists b := by simp
  last b := by simp
  kept p d hd := ⟨d, hd, rfl, rfl, fun _ => rfl⟩
  image p d hd hlive _ := ⟨d, hd, .same rfl rfl rfl hlive⟩
  renamed p hp := absurd rfl hp
  injective p q hpq _ _ := hpq
  lost p hp := by cases hp
  new x hx := by cases hx
  only q hq := .inl hq
  moved v hv := absurd rfl hv
  type v V hV := ty?_of hV
  added p _ hp := absurd rfl hp
  added_count p hp := absurd rfl hp

theorem Embedding.start (f : Routine) : Embedding f f {} where
  change := .refl f
  lossless _ := rfl
  renamed p hp := absurd rfl hp
  added p hp := absurd rfl hp
  typed p v hv := by cases hv
  opened b hb := absurd rfl hb
  made x hx hx' := absurd hx hx'

variable {f r r' : Routine} {F G : Footprint} {s s' : Session} {δ ε : Delta} {i : ValueId}

/-- What an operation allocates is among its results, and it is no construct. -/
theorem Routine.AllocatedIn.result {b : BlockId} (h : f.AllocatedIn b v) :
    ∃ p, f.op? p ≠ none ∧ f.isConstruct p = false ∧ v ∈ f.resultsOf p := by
  obtain ⟨p, d, -, hd, -, hv⟩ := h
  refine ⟨p, by simp [hd], ?_, resultsOf_of hd ▸ Op.mem_results_of_mem_allocated hv⟩
  simp [isConstruct_of hd, (Op.kind_of_effects (.inl (List.ne_nil_of_mem hv))).1]

/-- An own keeps its place and its operand. -/
theorem Made.own_stays {x : OpId} (h : Made f r x) (hδ : Embedding f r δ) (hl : r.Linked)
    (hc : Change r r' ε) (hkind : r.kind? x = some .own) :
    r'.parent? x = r.parent? x ∧ r'.operandsOf x = r.operandsOf x := by
  obtain ⟨d, hd, -⟩ := Option.map_eq_some_iff.mp hkind
  obtain ⟨hop, hkept⟩ := hc.stays hkind rfl (by simp)
  rw [parent?_of hd, operandsOf_of hd]
  by_cases hlive : d.erased = true
  · obtain ⟨e, he, -, -, hsame⟩ := hc.kept x d hd
    rw [hsame hlive] at he
    exact ⟨parent?_of he, operandsOf_of he⟩
  · obtain ⟨e, he, hgrown⟩ := hc.image x d hd (by simpa using hlive) hkept
    rw [hop] at he
    have hadded : ε.added x = [] :=
      hc.added_eq_nil (by simp [hd]) hop (by simp [isTerminator, hkind, OpKind.isTerminator])
    -- the buffer is a result of an operation that is no construct, so it keeps its name
    obtain ⟨b, v, -, hoperands, halloc⟩ := h.owns hkind
    have hvalue : ε.value v = v := by
      obtain ⟨p, hp, hcons, hv⟩ := halloc.result
      refine hc.value_result hl (hc.op_eq_self ?_) ?_ (p := p)
      · rwa [hδ.change.isConstruct_kept hp]
      · rwa [hδ.change.keeps.resultsOf hp]
    rw [operandsOf_of hd] at hoperands
    rw [parent?_of he, operandsOf_of he, hgrown.operands, hadded, hoperands]
    exact ⟨hgrown.parent, by simp [hvalue]⟩

/-- Nothing about an operation that was made changes later. -/
theorem Made.step {x : OpId} (h : Made f r x) (hδ : Embedding f r δ) (hl : r.Linked)
    (hc : Change r r' ε) (hx : r.op? x ≠ none) : Made f r' x where
  typed hcons v hv := by
    rw [hc.keeps.resultsOf hx] at hv
    rw [hc.isConstruct_kept hx] at hcons
    exact hc.keeps.ty? (h.typed hcons v hv)
  owns hkind := by
    rw [hc.keeps.kind?_eq hx] at hkind
    obtain ⟨hparent, hoperands⟩ := h.own_stays hδ hl hc hkind
    rw [hparent, hoperands]
    exact h.owns hkind

theorem Embedding.step (h : Embedding f r δ) (hw : f.WellFormed) (hl : r.Linked)
    (hs : Legal f F r r' ε) :
    Embedding f r' (δ.andThen ε) where
  change := h.change.andThen hs.change hw hs.later h.lossless
  lossless := h.lossless
  renamed p hp := by
    -- if the first change keeps the name, the second one does not
    by_cases hop : δ.op p = p
    · exact hs.renamed p (by simpa [Delta.andThen, hop] using hp)
    · exact h.renamed p hop
  added p hp := by
    by_cases hδ : δ.added p = []
    · have hε : ε.added (δ.op p) ≠ [] := by simpa [Delta.andThen, hδ] using hp
      by_cases hop : δ.op p = p
      · exact hs.added p (by rwa [hop] at hε)
      · exact .inl (h.renamed p hop)
    · exact h.added p hδ
  typed p v hv := by
    rcases List.mem_append.mp hv with hv | hv
    · exact ⟨hs.change.keeps.ty? (h.typed p v hv).1, (h.typed p v hv).2⟩
    · exact ⟨hs.change.keeps.ty? (hs.sound.added _ v hv).2, hs.later.added _ v hv⟩
  opened b hb := by
    by_cases hargs : r'.argsOf b = r.argsOf b
    · exact h.opened b (by rwa [hargs] at hb)
    · exact hs.opened b hargs
  made x hx hx' := by
    by_cases hr : r.op? x = none
    · exact hs.made x hr hx'
    -- made before this change, which leaves it as it is
    · exact (h.made x hx hr).step h hl hs.change hr

theorem Recorded.step (h : Recorded f r v i) (hδ : Embedding f r δ) (hl : r.Linked)
    (hc : Change r r' ε) : Recorded f r' v i where
  companion := hc.companion hl h.companion
  typed := hc.keeps.ty? h.typed
  later := h.later
  made := by
    rcases h.made with ⟨b, hb⟩ | ⟨x, hx, hkind, hi, hv⟩
    · obtain ⟨extra, hargs, -⟩ := hc.args b
      exact .inl ⟨b, by simp [hargs, hb]⟩
    · -- an own keeps its operand, so it stays the one of this value
      obtain ⟨d, hd, -⟩ := Option.map_eq_some_iff.mp hkind
      have hentry : r.op? x ≠ none := by simp [hd]
      obtain ⟨-, hoperands⟩ := (hδ.made x hx hentry).own_stays hδ hl hc hkind
      refine .inr ⟨x, hx, (hc.keeps.kind?_eq hentry).trans hkind, ?_, hoperands.trans hv⟩
      rwa [hc.keeps.resultsOf hentry]

/-- An own that makes a recorded indicator is one of the value that it is recorded for. -/
theorem Recorded.operand {x : OpId} {w : ValueId} (h : Recorded f r v i) (hl : r.Linked)
    (hi : i ∈ r.resultsOf x) (hw : r.operandsOf x = [w]) : v = w := by
  rcases h.made with ⟨b, hb⟩ | ⟨y, -, -, hi', hv⟩
  · exact absurd hb (hl.not_arg_of_result hi)
  · obtain rfl := hl.result_unique hi hi'
    exact List.singleton_inj.mp (hv.symm.trans hw)

theorem Recorded.known (h : Recorded f r v i) : i.index < r.values.size := by
  obtain ⟨V, hV, -⟩ := Option.map_eq_some_iff.mp h.typed
  exact lt_of_value? hV

/-- A new value is not recorded for anything. -/
theorem Threaded.not_recorded (h : Threaded f s) (hi : s.routine.values.size ≤ i.index)
    (w : ValueId) : (w, i) ∉ s.aliases.indicators :=
  fun hmem => Nat.not_lt.mpr hi (h.recorded w i hmem).known

/-- A step keeps a session threaded. -/
theorem Threaded.step (h : Threaded f s) (hw : f.WellFormed) (hstep : Step f F s s') :
    Threaded f s' := by
  cases hstep with
  | edit ε hlegal haliases =>
    obtain ⟨δ, hδ⟩ := h.embedded
    refine ⟨hlegal.change.wellFormed hlegal.sound h.wellFormed hlegal.linked,
      ⟨_, hδ.step hw h.wellFormed.linked hlegal⟩, fun v i hmem => ?_, haliases ▸ h.distinct,
      haliases ▸ h.classes, haliases ▸ h.joined⟩
    rw [haliases] at hmem
    exact (h.recorded v i hmem).step hδ h.wellFormed.linked hlegal.change
  | forget hroutine hsub hgrows =>
    obtain ⟨hsound, hsame⟩ := hgrows h.classes
    exact ⟨hroutine ▸ h.wellFormed, hroutine ▸ h.embedded,
      fun v i hmem => hroutine ▸ h.recorded v i (hsub hmem),
      fun v w i hv hw => h.distinct v w i (hsub hv) (hsub hw), hsound,
      fun v i hmem => hsame v i (h.joined v i (hsub hmem))⟩
  | record v i hroutine hsub hnew hrec hgrows hjoined =>
    obtain ⟨hsound, hsame⟩ := hgrows h.classes
    refine ⟨hroutine ▸ h.wellFormed, hroutine ▸ h.embedded, fun w j hmem => ?_,
      fun u w j hu hw => ?_, hsound, fun w j hmem => ?_⟩
    · rw [hroutine]
      rcases List.mem_cons.mp (hsub hmem) with heq | hmem
      · cases heq
        exact hrec
      · exact h.recorded w j hmem
    · -- the new indicator was recorded for nothing before
      rcases List.mem_cons.mp (hsub hu) with heq | hu <;>
        rcases List.mem_cons.mp (hsub hw) with heq' | hw
      · cases heq
        cases heq'
        rfl
      · cases heq
        exact absurd hw (hnew w)
      · cases heq'
        exact absurd hu (hnew u)
      · exact h.distinct u w j hu hw
    · rcases List.mem_cons.mp (hsub hmem) with heq | hmem
      · cases heq
        exact hjoined h.classes
      · exact hsame w j (h.joined w j hmem)

/-- A run keeps a session threaded. -/
theorem Threaded.run (h : Threaded f s) (hw : f.WellFormed) (hrun : Run f F s s') :
    Threaded f s' := by
  induction hrun with
  | refl => exact h
  | tail _ hstep ih => exact ih.step hw hstep

theorem Threaded.start (hw : f.WellFormed) : Threaded f (.start f) where
  wellFormed := hw
  embedded := ⟨_, .start f⟩
  recorded v i hmem := by cases hmem
  distinct v w i hmem := by cases hmem
  classes := .empty
  joined v i hmem := by cases hmem

/-! ## What a run keeps -/

theorem Run.grows (h : Run f F s s') : s.aliases.Grows s'.aliases := by
  induction h with
  | refl => exact .refl _
  | tail _ hstep ih =>
    cases hstep with
    | edit _ _ haliases => exact haliases ▸ ih
    | forget _ _ hgrows => exact ih.trans hgrows
    | record _ _ _ _ _ _ hgrows _ => exact ih.trans hgrows

/-- What is in one class stays so. -/
theorem Threaded.same (h : Threaded f s) (hrun : Run f F s s') {w : ValueId}
    (hsame : s.aliases.same v w = true) : s'.aliases.same v w = true :=
  (hrun.grows h.classes).2 v w hsame

/-- What each legal change keeps, a run keeps. -/
theorem Run.preserves {P : Routine → Prop} (h : Run f F s s') (hs : P s.routine)
    (hedit : ∀ {mid last : Session} {δ}, Run f F s mid → Legal f F mid.routine last.routine δ →
      last.aliases = mid.aliases → P mid.routine → P last.routine) : P s'.routine := by
  induction h with
  | refl => exact hs
  | tail hrun hstep ih =>
    cases hstep with
    | edit _ hlegal haliases => exact hedit hrun hlegal haliases ih
    | forget hroutine _ _ => exact hroutine ▸ ih
    | record _ _ hroutine _ _ _ _ _ => exact hroutine ▸ ih

/-- What is known of a recorded indicator stays true of it. -/
theorem Recorded.run (h : Recorded f s.routine v i) (ht : Threaded f s) (hw : f.WellFormed)
    (hrun : Run f F s s') : Recorded f s'.routine v i := by
  refine hrun.preserves (P := fun r => Recorded f r v i) h fun hrun hlegal _ ih => ?_
  have ht' := ht.run hw hrun
  obtain ⟨δ, hδ⟩ := ht'.embedded
  exact ih.step hδ ht'.wellFormed.linked hlegal.change

theorem Run.keeps (h : Run f F s s') : Kept s.routine s'.routine :=
  h.preserves (.refl _) fun _ hlegal _ ih => ih.trans hlegal.change.keeps

/-! ## What a run leaves alone -/

/-- An operation outside the footprint keeps its operands, but for their names. -/
theorem Legal.operandsOf (h : Legal f F r r' δ) {p : OpId} (hf : f.op? p ≠ none)
    (hr : r.op? p ≠ none) (hlive : r.isErased p = false) (hout : ¬ F.ops p) :
    r'.isErased p = false ∧ r'.operandsOf p = (r.operandsOf p).map δ.value := by
  -- outside the footprint nothing is renamed or extended, and only what was made later is lost
  have hop : δ.op p = p := by
    by_contra hne
    exact hout (h.ops p (.inl hne))
  have hadded : δ.added p = [] := by
    by_contra hne
    exact hout (h.ops p (.inr hne))
  have hkept : δ.lost p = false := by
    by_contra hne
    exact hf (h.later.lost p (by simpa using hne))
  obtain ⟨d, hd⟩ := Option.ne_none_iff_exists'.mp hr
  obtain ⟨e, he, hgrown⟩ := h.change.image_of_live hd hlive hkept
  rw [hop] at he
  refine ⟨by rw [isErased_of he, hgrown.live], ?_⟩
  rw [operandsOf_of he, operandsOf_of hd, hgrown.operands, hadded, List.append_nil]

theorem Run.operands_length (h : Run f F s s') {p : OpId} (hf : f.op? p ≠ none)
    (hr : s.routine.op? p ≠ none) (hlive : s.routine.isErased p = false) (hout : ¬ F.ops p) :
    s'.routine.isErased p = false ∧
      (s'.routine.operandsOf p).length = (s.routine.operandsOf p).length := by
  refine h.preserves (P := fun r => r.isErased p = false ∧ (r.operandsOf p).length = _)
    ⟨hlive, rfl⟩ fun hrun hlegal _ ih => ?_
  obtain ⟨hlive', hoperands⟩ := hlegal.operandsOf hf (hrun.keeps.op?_ne_none hr) ih.1 hout
  exact ⟨hlive', by rw [hoperands, List.length_map, ih.2]⟩

theorem Run.opsOf (h : Run f F s s') {b : BlockId} (hout : ¬ F.blocks b) :
    s'.routine.opsOf b = s.routine.opsOf b :=
  h.preserves (P := fun r => r.opsOf b = _) rfl fun _ hlegal _ ih => (hlegal.blocks b hout).trans ih

theorem Run.argsOf (h : Run f F s s') {b : BlockId} (hout : ¬ F.args b) :
    s'.routine.argsOf b = s.routine.argsOf b :=
  h.preserves (P := fun r => r.argsOf b = _) rfl fun _ hlegal _ ih => (hlegal.args b hout).trans ih

/-- One footprint lies in another. -/
structure Footprint.Within (F G : Footprint) : Prop where
  ops : ∀ p, F.ops p → G.ops p
  blocks : ∀ b, F.blocks b → G.blocks b
  args : ∀ b, F.args b → G.args b

theorem Legal.mono (h : Legal f F r r' δ) (hFG : F.Within G) : Legal f G r r' δ :=
  { h with
    ops := fun p hp => hFG.ops p (h.ops p hp)
    blocks := fun b hb => h.blocks b fun hF => hb (hFG.blocks b hF)
    args := fun b hb => h.args b fun hF => hb (hFG.args b hF) }

theorem Run.mono (h : Run f F s s') (hFG : F.Within G) : Run f G s s' := by
  induction h with
  | refl => exact .refl
  | tail _ hstep ih =>
    refine Relation.ReflTransGen.tail ih ?_
    cases hstep with
    | edit δ hlegal haliases => exact .edit δ (hlegal.mono hFG) haliases
    | forget hroutine hsub hgrows => exact .forget hroutine hsub hgrows
    | record v i hroutine hsub hnew hrec hgrows hjoined =>
      exact .record v i hroutine hsub hnew hrec hgrows hjoined

theorem Run.anywhere (h : Run f F s s') : Run f .all s s' :=
  h.mono ⟨fun _ _ => trivial, fun _ _ => trivial, fun _ _ => trivial⟩

end BufferOwnership
