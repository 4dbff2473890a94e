import BufferOwnership.Proofs.Change

/-!
# One change after another

Changes from one routine on can be followed up by later changes, and by `Change.andThen` the whole
is again one change: names are composed, what was added adds up, and an operation that comes and
goes leaves nothing but an erased entry.
-/

namespace BufferOwnership

open Routine

namespace Change

variable {r r' : Routine} {δ : Delta} (h : Change r r' δ)
variable {p : OpId} {v : ValueId} {ty : Ty}
include h

/-! ## Entries before and after -/

theorem live_of_kept (hp : r'.isErased p = false) : r.isErased p = false := by
  by_contra hne
  rw [h.keeps.isErased (by simpa using hne)] at hp
  cases hp

theorem isConstruct_kept (hp : r.op? p ≠ none) : r'.isConstruct p = r.isConstruct p := by
  rw [isConstruct, isConstruct, h.keeps.kind?_eq hp]

/-- Under its new name, an operation has the kind that it had. -/
theorem kind?_image (hp : r.op? p ≠ none) (hkept : δ.lost p = false) :
    r'.kind? (δ.op p) = r.kind? p := by
  obtain ⟨d, hd⟩ := Option.ne_none_iff_exists'.mp hp
  cases herased : r.isErased p with
  | true => rw [h.op_of_erased herased, h.keeps.kind?_eq hp]
  | false =>
    obtain ⟨e, he, hgrown⟩ := h.image_of_live hd herased hkept
    rw [kind?_of he, kind?_of hd, hgrown.kind]

theorem op?_image (hp : r.op? p ≠ none) (hkept : δ.lost p = false) : r'.op? (δ.op p) ≠ none := by
  obtain ⟨d, hd⟩ := Option.ne_none_iff_exists'.mp hp
  have hkind := h.kind?_image hp hkept
  rw [kind?_of hd] at hkind
  obtain ⟨e, he, -⟩ := exists_op?_of_kind? hkind
  simp [he]

theorem ty?_image (hv : r.ty? v = some ty) : r'.ty? (δ.value v) = some ty := by
  obtain ⟨V, hV, rfl⟩ := Option.map_eq_some_iff.mp hv
  exact h.type v V hV

/-- What is neither renamed nor ends a block gets no operands. -/
theorem added_eq_nil (hp : r.op? p ≠ none) (hop : δ.op p = p)
    (hterm : r.isTerminator p = false) : δ.added p = [] := by
  by_contra hne
  rcases h.added p hp hne with hne | hends
  · exact hne hop
  · rw [hterm] at hends
    cases hends

/-- What keeps its name and gets no operands keeps its entry, but for the names of its operands. -/
theorem entry_kept {d : Op} (hd : r.op? p = some d) (hlive : d.erased = false)
    (hkept : δ.lost p = false) (hop : δ.op p = p) (hadded : δ.added p = []) :
    r'.op? p = some { d with operands := d.operands.map δ.value } := by
  obtain ⟨e, he, hgrown⟩ := h.image p d hd hlive hkept
  obtain ⟨e', he', -, hresults, -⟩ := h.kept p d hd
  rw [hop] at he
  obtain rfl := Option.mem_unique he' he
  obtain ⟨hkind, hregions, hparent, hlive', hoperands, -⟩ := hgrown
  rw [hadded, List.append_nil] at hoperands
  rw [he]
  cases e'
  simp_all

/-- A change of names changes no type. -/
theorem holdsBuffer_value (hv : v.index < r.values.size) :
    r'.holdsBuffer (δ.value v) = r.holdsBuffer v := by
  obtain ⟨V, hV⟩ := exists_value? hv
  simp [holdsBuffer, h.type v V hV, ty?_of hV]

/-- So it keeps the number of buffers. -/
theorem bufferCount_map {vs : List ValueId} (hvs : ∀ v ∈ vs, v.index < r.values.size) :
    r'.bufferCount (vs.map δ.value) = r.bufferCount vs := by
  rw [bufferCount, List.countP_map]
  exact List.countP_congr fun v hv => by simp [h.holdsBuffer_value (hvs v hv)]

end Change

/-! ## One change after another -/

theorem Routine.isTerminator_of_isConstruct {r : Routine} {o : OpId}
    (ho : r.isConstruct o = true) : r.isTerminator o = false := by
  unfold isConstruct at ho
  unfold isTerminator
  cases hk : r.kind? o with
  | none => rfl
  | some k =>
    rw [hk] at ho
    cases k <;> simp_all [OpKind.construct?, OpKind.isTerminator]

/-- What two changes do together. -/
def Delta.andThen (δ ε : Delta) : Delta where
  op p := ε.op (δ.op p)
  value v := ε.value (δ.value v)
  lost := δ.lost
  new q := ε.new q || (δ.new q && !ε.lost q)
  added p := δ.added p ++ ε.added (δ.op p)

namespace Change

variable {f r r' : Routine} {δ ε : Delta}

/-- A later change loses and adds only what came in between, and renames what was there before. -/
structure Later (f : Routine) (ε : Delta) : Prop where
  lost : ∀ x, ε.lost x = true → f.op? x = none
  renamed : ∀ x, ε.op x ≠ x → f.op? x ≠ none
  added : ∀ p, ∀ v ∈ ε.added p, f.values.size ≤ v.index

section AfterChange

variable {x : OpId} {e : Op}

variable (h : Change f r δ)
include h

/-- A new operation keeps its name. -/
theorem op_of_new (h' : Change r r' ε) (hx : δ.new x = true) : ε.op x = x := by
  obtain ⟨-, e, he, hins⟩ := h.new x hx
  refine h'.op_eq_self ?_
  rcases hins.kind with hk | hk | ⟨n, hk, -, -⟩ <;>
    simp [isConstruct_of he, hk, OpKind.construct?]

/-- What was renamed once is not renamed again. -/
theorem op_of_renamed (hf : Later f ε) (hp : δ.op p ≠ p) : ε.op (δ.op p) = δ.op p := by
  by_contra hne
  exact hf.renamed _ hne (h.renamed p hp).2.2.1

/-- What is renamed later was not renamed before. -/
theorem op_of_renamed_later (h' : Change r r' ε) (hp : ε.op p ≠ p) : δ.op p = p := by
  by_contra hne
  have hlive := (h'.renamed p hp).2.1
  rw [(h.renamed p hne).2.2.2] at hlive
  cases hlive

theorem lost_image (h' : Change r r' ε) (hf : Later f ε)
    (hδ : ∀ p, δ.lost p = false) (hp : f.op? p ≠ none) :
    ε.lost (δ.op p) = false := by
  refine Bool.eq_false_iff.mpr fun hlost => ?_
  by_cases hop : δ.op p = p
  · rw [hop] at hlost
    exact hp (hf.lost p hlost)
  -- what is renamed is a construct, and only retains are lost
  · obtain ⟨hretain, -⟩ := h'.lost _ hlost
    have hcons := (h.renamed p hop).1
    rw [h.kind?_image hp (hδ p)] at hretain
    simp [isConstruct, hretain, OpKind.construct?] at hcons

theorem lists_andThen (h' : Change r r' ε) (hl : f.Linked) (hf : Later f ε)
    (hδ : ∀ p, δ.lost p = false) (b : BlockId) :
    (r'.opsOf b).filter (fun q => !(δ.andThen ε).new q) =
      ((f.opsOf b).filter fun p => !(δ.andThen ε).lost p).map (δ.andThen ε).op := by
  have hsplit : (r'.opsOf b).filter (fun q => !(δ.andThen ε).new q) =
      ((r'.opsOf b).filter fun q => !ε.new q).filter fun q => !(δ.new q && !ε.lost q) := by
    rw [List.filter_filter]
    refine List.filter_congr fun q _ => ?_
    simp [Delta.andThen, Bool.and_comm]
  -- among what is not lost, the operations that were new before are still new
  have hnew : ∀ p ∈ (r.opsOf b).filter fun p => !ε.lost p,
      (!(δ.new (ε.op p) && !ε.lost (ε.op p))) = !δ.new p := by
    intro p hp
    have hkept : ε.lost p = false := by simpa using (List.mem_filter.mp hp).2
    by_cases hop : ε.op p = p
    · simp [hop, hkept]
    · have hold : δ.new p = false := by
        by_contra hne
        exact hop (h.op_of_new h' (by simpa using hne))
      have hfresh : δ.new (ε.op p) = false := by
        by_contra hne
        obtain ⟨-, e, he, -⟩ := h.new _ (by simpa using hne)
        rw [(h'.renamed p hop).2.2.1] at he
        cases he
      simp [hold, hfresh]
  have hkeep : ((f.opsOf b).map δ.op).filter (fun p => !ε.lost p) = (f.opsOf b).map δ.op := by
    refine List.filter_eq_self.mpr fun q hq => ?_
    obtain ⟨p, hp, rfl⟩ := List.mem_map.mp hq
    simp [h.lost_image h' hf hδ (hl.op?_of_listed hp)]
  have hfirst := h.lists b
  simp only [hδ, Bool.not_false, List.filter_true] at hfirst
  calc (r'.opsOf b).filter (fun q => !(δ.andThen ε).new q)
      = (((r.opsOf b).filter fun p => !ε.lost p).map ε.op).filter
          fun q => !(δ.new q && !ε.lost q) := by rw [hsplit, h'.lists]
    _ = (((r.opsOf b).filter fun p => !ε.lost p).filter fun p => !δ.new p).map ε.op := by
        rw [List.filter_map]
        exact congrArg _ (List.filter_congr hnew)
    _ = (((r.opsOf b).filter fun p => !δ.new p).filter fun p => !ε.lost p).map ε.op := by
        rw [List.filter_comm]
    _ = ((f.opsOf b).filter fun p => !(δ.andThen ε).lost p).map (δ.andThen ε).op := by
        rw [hfirst, hkeep, List.map_map]
        simp [Delta.andThen, hδ, Function.comp_def]

/-- Values that came later keep their names. -/
theorem value_of_later (hl : f.Linked) (hv : f.values.size ≤ v.index) : δ.value v = v := by
  by_contra hne
  obtain ⟨p, -, hres⟩ := h.moved v hne
  exact absurd (hl.result_known hres) (by omega)

theorem op_andThen_eq_self (h' : Change r r' ε)
    (hp : f.op? p ≠ none) (hop : ε.op (δ.op p) = p) : δ.op p = p ∧ ε.op p = p := by
  have hδ : δ.op p = p := by
    by_contra hne
    -- renamed back, it would take a name that is in use
    have hε : ε.op (δ.op p) ≠ δ.op p := by
      rw [hop]
      exact Ne.symm hne
    have hnone := (h'.renamed _ hε).2.2.1
    rw [hop] at hnone
    exact h.keeps.op?_ne_none hp hnone
  exact ⟨hδ, by rwa [hδ] at hop⟩

theorem grown_andThen (h' : Change r r' ε) (hl : f.Linked) (hf : Later f ε) {d g : Op}
    (hd : f.op? p = some d) (h₁ : Op.Grown f r δ p d e) (h₂ : Op.Grown r r' ε (δ.op p) e g) :
    Op.Grown f r' (δ.andThen ε) p d g where
  kind := h₂.kind.trans h₁.kind
  regions := h₂.regions.trans h₁.regions
  parent := h₂.parent.trans h₁.parent
  live := h₂.live
  operands := by
    -- what is added later is not touched by the first renaming
    have hfix : (ε.added (δ.op p)).map δ.value = ε.added (δ.op p) :=
      (List.map_congr_left fun v hv => h.value_of_later hl (hf.added _ v hv)).trans (List.map_id _)
    calc g.operands = ((d.operands ++ δ.added p).map δ.value ++
            (ε.added (δ.op p)).map δ.value).map ε.value := by
          rw [h₂.operands, h₁.operands, hfix]
      _ = (d.operands ++ (δ.andThen ε).added p).map (δ.andThen ε).value := by
          simp [Delta.andThen, Function.comp_def]
  results := by
    obtain ⟨extra₁, hres₁, htyped₁, hsame₁, hcount₁⟩ := h₁.results
    obtain ⟨extra₂, hres₂, htyped₂, hsame₂, hcount₂⟩ := h₂.results
    have hp : f.op? p ≠ none := by simp [hd]
    refine ⟨extra₁.map ε.value ++ extra₂, ?_, ?_, ?_, ?_⟩
    · rw [hres₂, hres₁]
      simp [Delta.andThen, Function.comp_def]
    · intro v hv
      rcases List.mem_append.mp hv with hv | hv
      · obtain ⟨w, hw, rfl⟩ := List.mem_map.mp hv
        exact h'.ty?_image (htyped₁ w hw)
      · exact htyped₂ v hv
    · intro hop
      obtain ⟨hδ, hε⟩ := h.op_andThen_eq_self h' hp hop
      rw [hsame₁ hδ, hsame₂ (by rw [hδ, hε])]
      rfl
    · intro hop
      by_cases hδ : δ.op p = p
      · -- renamed by the second change, so not yet grown by the first
        have hε : ε.op (δ.op p) ≠ δ.op p := by
          rw [hδ]
          simpa [Delta.andThen, hδ] using hop
        have hknown : ∀ v ∈ d.results, v.index < f.values.size := fun v hv =>
          hl.result_known (o := p) (by rwa [resultsOf_of hd])
        rw [hsame₁ hδ, List.map_nil, List.nil_append, hcount₂ hε, hres₁, hsame₁ hδ,
          List.append_nil, h.bufferCount_map hknown]
      · rw [hsame₂ (h.op_of_renamed hf hδ), List.append_nil, List.length_map, hcount₁ hδ]

/-- What both changes together rename, one of them does. -/
theorem renamed_cases (hf : Later f ε) (hop : (δ.andThen ε).op p ≠ p) :
    (δ.op p = p ∧ ε.op p ≠ p) ∨ (δ.op p ≠ p ∧ ε.op (δ.op p) = δ.op p) := by
  by_cases hδ : δ.op p = p
  · exact .inl ⟨hδ, by simpa [Delta.andThen, hδ] using hop⟩
  · exact .inr ⟨hδ, h.op_of_renamed hf hδ⟩

section

variable (h' : Change r r' ε)
include h'

theorem renamed_andThen (hf : Later f ε) (hop : (δ.andThen ε).op p ≠ p) :
    f.isConstruct p = true ∧ f.isErased p = false ∧ f.op? ((δ.andThen ε).op p) = none ∧
      r'.isErased p = true := by
  rcases h.renamed_cases hf hop with ⟨hδ, hε⟩ | ⟨hδ, hε⟩
  · obtain ⟨hcons, hlive, hnone, hgone⟩ := h'.renamed p hε
    rw [h.isConstruct_kept (hf.renamed p hε)] at hcons
    refine ⟨hcons, h.live_of_kept hlive, ?_, hgone⟩
    show f.op? (ε.op (δ.op p)) = none
    rw [hδ]
    by_contra hne
    exact h.keeps.op?_ne_none hne hnone
  · obtain ⟨hcons, hlive, hnone, hgone⟩ := h.renamed p hδ
    refine ⟨hcons, hlive, ?_, h'.keeps.isErased hgone⟩
    show f.op? (ε.op (δ.op p)) = none
    rw [hε, hnone]

/-- What was inserted stays as it was inserted. -/
theorem inserted_image (hx : δ.new x = true) (he : r.op? x = some e) (hins : e.Inserted)
    (hkept : ε.lost x = false) : ∃ g, r'.op? x = some g ∧ g.Inserted := by
  -- it is not renamed, so it gets no results
  obtain ⟨g, hg, hgrown⟩ := h'.image x e he hins.live hkept
  have hop := h.op_of_new h' hx
  obtain ⟨extra, hres, -, hsame, -⟩ := hgrown.results
  rw [hop] at hg
  refine ⟨g, hg, ?_, by rw [hgrown.regions, hins.regions], hgrown.live⟩
  rw [hgrown.kind]
  rcases hins.kind with hk | hk | ⟨n, hk, hle, hlen⟩
  · exact .inl hk
  · exact .inr (.inl hk)
  · refine .inr (.inr ⟨n, hk, ?_, by simp [hres, hsame hop, hlen]⟩)
    rw [hgrown.operands, List.length_map, List.length_append]
    omega

theorem new_andThen (hx : (δ.andThen ε).new x = true) :
    f.op? x = none ∧ ∃ e, r'.op? x = some e ∧ e.Inserted := by
  simp only [Delta.andThen, Bool.or_eq_true, Bool.and_eq_true, Bool.not_eq_true'] at hx
  rcases hx with hx | ⟨hx, hkept⟩
  · obtain ⟨hnone, hins⟩ := h'.new x hx
    refine ⟨?_, hins⟩
    by_contra hne
    exact h.keeps.op?_ne_none hne hnone
  · obtain ⟨hnone, e, he, hins⟩ := h.new x hx
    exact ⟨hnone, h.inserted_image h' hx he hins hkept⟩

theorem only_andThen (hf : Later f ε) {q : OpId} (hq : r'.op? q ≠ none) :
    f.op? q ≠ none ∨ (δ.andThen ε).new q = true ∨
      (∃ p, (δ.andThen ε).op p = q ∧ (δ.andThen ε).op p ≠ p) ∨
      (r'.isErased q = true ∧ ∃ n, r'.kind? q = some (.retain n)) := by
  rcases h'.only q hq with hr | hnew | ⟨p, rfl, hp⟩ | hgone
  · rcases h.only q hr with hold | hnew | ⟨p, rfl, hp⟩ | ⟨herased, n, hkind⟩
    · exact .inl hold
    · -- what was new and is lost came and went
      cases hlost : ε.lost q with
      | true =>
        obtain ⟨hretain, -, hgone, -⟩ := h'.lost q hlost
        exact .inr (.inr (.inr ⟨hgone, _, by rw [h'.keeps.kind?_eq hr, hretain]⟩))
      | false => exact .inr (.inl (by simp [Delta.andThen, hnew, hlost]))
    · have hsame : (δ.andThen ε).op p = δ.op p := h.op_of_renamed hf hp
      exact .inr (.inr (.inl ⟨p, hsame, by rwa [hsame]⟩))
    · exact .inr (.inr (.inr ⟨h'.keeps.isErased herased, n, by rw [h'.keeps.kind?_eq hr, hkind]⟩))
  · exact .inr (.inl (by simp [Delta.andThen, hnew]))
  · have hsame : (δ.andThen ε).op p = ε.op p := congrArg ε.op (h.op_of_renamed_later h' hp)
    exact .inr (.inr (.inl ⟨p, hsame, by rwa [hsame]⟩))
  · exact .inr (.inr (.inr hgone))

theorem moved_andThen (hf : Later f ε) (hv : (δ.andThen ε).value v ≠ v) :
    ∃ p, (δ.andThen ε).op p ≠ p ∧ v ∈ f.resultsOf p := by
  by_cases hδv : δ.value v = v
  · obtain ⟨p, hp, hres⟩ := h'.moved v (by simpa [Delta.andThen, hδv] using hv)
    have hδp := h.op_of_renamed_later h' hp
    refine ⟨p, by simpa [Delta.andThen, hδp] using hp, ?_⟩
    rwa [h.keeps.resultsOf (hf.renamed p hp)] at hres
  · obtain ⟨p, hp, hres⟩ := h.moved v hδv
    refine ⟨p, ?_, hres⟩
    show ε.op (δ.op p) ≠ p
    rwa [h.op_of_renamed hf hp]

theorem added_andThen (hp : f.op? p ≠ none) (hadd : (δ.andThen ε).added p ≠ []) :
    (δ.andThen ε).op p ≠ p ∨ f.isTerminator p = true := by
  have hne : δ.added p ≠ [] ∨ ε.added (δ.op p) ≠ [] := by
    by_contra hnone
    push Not at hnone
    exact hadd (by simp [Delta.andThen, hnone])
  by_cases hop : ε.op (δ.op p) = p
  · obtain ⟨hδp, hεp⟩ := h.op_andThen_eq_self h' hp hop
    right
    rcases hne with hne | hne
    · exact (h.added p hp hne).resolve_left (by simp [hδp])
    · rw [hδp] at hne
      have hterm := (h'.added p (h.keeps.op?_ne_none hp) hne).resolve_left (by simp [hεp])
      rwa [isTerminator, h.keeps.kind?_eq hp] at hterm
  · exact .inl hop

theorem added_count_andThen (hw : f.WellFormed) (hf : Later f ε) (hδ : ∀ p, δ.lost p = false)
    (hop : (δ.andThen ε).op p ≠ p) :
    ((δ.andThen ε).added p).length = f.bufferCount (f.operandsOf p) := by
  obtain ⟨hcons, hlive, -⟩ := h.renamed_andThen h' hf hop
  obtain ⟨d, hd⟩ : ∃ d, f.op? p = some d := by
    cases hd : f.op? p with
    | none => simp [isConstruct, kind?, hd] at hcons
    | some d => exact ⟨d, rfl⟩
  have hp : f.op? p ≠ none := by simp [hd]
  -- a construct gets its operands from the change that renames it, and none from the other
  rcases h.renamed_cases hf hop with ⟨hδp, hεp⟩ | ⟨hδp, hεp⟩
  · have hnone : δ.added p = [] := h.added_eq_nil hp hδp (isTerminator_of_isConstruct hcons)
    obtain ⟨e, he, hgrown⟩ := h.image_of_live hd hlive (hδ p)
    have hoperands : r.operandsOf p = (f.operandsOf p).map δ.value := by
      rw [hδp] at he
      rw [operandsOf_of he, hgrown.operands, hnone, List.append_nil, operandsOf_of hd]
    have hcount := h'.added_count p hεp
    rw [hoperands, h.bufferCount_map (hw.known p)] at hcount
    simp [Delta.andThen, hnone, hδp, hcount]
  · have hnone : ε.added (δ.op p) = [] := by
      apply h'.added_eq_nil (h.op?_image hp (hδ p)) hεp
      rw [isTerminator, h.kind?_image hp (hδ p)]
      exact isTerminator_of_isConstruct hcons
    simp [Delta.andThen, hnone, h.added_count p hδp]

/-- A change from the start on, followed by a later one, is a change from the start on. -/
theorem andThen (hw : f.WellFormed) (hf : Later f ε) (hδ : ∀ p, δ.lost p = false) :
    Change f r' (δ.andThen ε) where
  root := h'.root.trans h.root
  value v V hV := h'.value v V (h.value v V hV)
  home b := (h'.home b).trans (h.home b)
  blocksOf g := (h'.blocksOf g).trans (h.blocksOf g)
  owner g := by
    rw [h'.owner, h.owner, Option.map_map]
    rfl
  args b := by
    -- types stay, so what the first change added is still typed after the second
    obtain ⟨extra₁, hargs₁, htyped₁⟩ := h.args b
    obtain ⟨extra₂, hargs₂, htyped₂⟩ := h'.args b
    refine ⟨extra₁ ++ extra₂, by rw [hargs₂, hargs₁, List.append_assoc], fun v hv => ?_⟩
    rcases List.mem_append.mp hv with hv | hv
    · exact h'.keeps.ty? (htyped₁ v hv)
    · exact htyped₂ v hv
  lists b := h.lists_andThen h' hw.linked hf hδ b
  last b := by
    rw [h'.last, h.last, Option.map_map]
    rfl
  kept p d hd := by
    obtain ⟨e, he, hkind, hres, hsame⟩ := h.kept p d hd
    obtain ⟨g, hg, hkind', hres', hsame'⟩ := h'.kept p e he
    refine ⟨g, hg, hkind'.trans hkind, hres'.trans hres, fun herased => ?_⟩
    have hed := hsame herased
    rw [hsame' (by rw [hed, herased]), hed]
  image p d hd hlive hkept := by
    obtain ⟨e, he, h₁⟩ := h.image p d hd hlive hkept
    obtain ⟨g, hg, h₂⟩ := h'.image (δ.op p) e he h₁.live (h.lost_image h' hf hδ (by simp [hd]))
    exact ⟨g, hg, h.grown_andThen h' hw.linked hf hd h₁ h₂⟩
  renamed _ := h.renamed_andThen h' hf
  injective p q hpq hp hq :=
    h.injective p q (h'.injective _ _ hpq (h.op?_image hp (hδ p)) (h.op?_image hq (hδ q))) hp hq
  lost p hp := by
    rw [show (δ.andThen ε).lost p = δ.lost p from rfl, hδ] at hp
    cases hp
  new _ := h.new_andThen h'
  only _ := h.only_andThen h' hf
  moved _ := h.moved_andThen h' hf
  type v V hV := h'.ty?_image (h.type v V hV)
  added _ := h.added_andThen h'
  added_count _ := h.added_count_andThen h' hw hf hδ

end

end AfterChange

end Change

end BufferOwnership
