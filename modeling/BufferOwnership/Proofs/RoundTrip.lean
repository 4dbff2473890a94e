import BufferOwnership.Routine.Stored
import Mathlib.Data.List.Forall2
import Mathlib.Data.List.Nodup

/-!
# Stored routines read back

Reading the stored form of a routine gives the routine again, also if the fields of its objects come
in another order (`Document.Reordered`). So no two routines are stored alike. `Restores` says that
one thing reads back; it is shown for each kind of entry from its parts. Numbers are read only if
they fit into 32 bits (`fitsWord`).
-/

namespace BufferOwnership

namespace Document

variable {fields : List (String × Document)} {key : String}

/-- The second document is the first with the fields of its objects in another order. -/
inductive Reordered : Document → Document → Prop
  | null : Reordered .null .null
  | bool (b : Bool) : Reordered (.bool b) (.bool b)
  | number (m : Int) (p : Nat) : Reordered (.number m p) (.number m p)
  | text (s : String) : Reordered (.text s) (.text s)
  | list {items items' : List Document} :
      List.Forall₂ Reordered items items' → Reordered (.list items) (.list items')
  | object {fields mid fields' : List (String × Document)} :
      fields.map Prod.fst = mid.map Prod.fst →
      List.Forall₂ Reordered (fields.map Prod.snd) (mid.map Prod.snd) → mid.Perm fields' →
      Reordered (.object fields) (.object fields')

/-- A document is a reordering of itself. -/
theorem Reordered.refl : ∀ d : Document, d.Reordered d
  | .null => .null
  | .bool b => .bool b
  | .number m p => .number m p
  | .text s => .text s
  | .list items => .list (List.forall₂_same.mpr fun d _ => refl d)
  | .object fields => by
    refine .object rfl (List.forall₂_map_left_iff.mpr (List.forall₂_map_right_iff.mpr ?_)) (.refl _)
    exact List.forall₂_same.mpr fun f _ => refl f.2
termination_by d => sizeOf d
decreasing_by
  · rename_i hd
    have hlt := List.sizeOf_lt_of_mem hd
    simp only [list.sizeOf_spec]
    omega
  · rename_i hf
    have hlt := List.sizeOf_lt_of_mem hf
    have hpair : sizeOf f = 1 + sizeOf f.1 + sizeOf f.2 := by cases f; rfl
    simp only [object.sizeOf_spec]
    omega

/-! ## Looking up in another order -/

/-- A key has at most one value in fields with different keys. -/
theorem lookup_eq_some_iff (hkeys : (fields.map Prod.fst).Nodup) {d : Document} :
    fields.lookup key = some d ↔ (key, d) ∈ fields := by
  induction fields with
  | nil => simp
  | cons f fields ih =>
    obtain ⟨k, c⟩ := f
    obtain ⟨hk, hkeys⟩ := List.nodup_cons.mp hkeys
    by_cases he : key = k
    · subst he
      have hout : (key, d) ∉ fields := fun hmem => hk (List.mem_map.mpr ⟨_, hmem, rfl⟩)
      simp [hout, eq_comm]
    · have hbeq : (key == k) = false := by simpa using he
      simp [List.lookup_cons, hbeq, ih hkeys, he]

/-- Fields related in order are related where a key is found. -/
theorem lookup_reordered {mid : List (String × Document)}
    (hkeys : fields.map Prod.fst = mid.map Prod.fst)
    (hvalues : List.Forall₂ Reordered (fields.map Prod.snd) (mid.map Prod.snd)) {d : Document}
    (h : fields.lookup key = some d) : ∃ d', mid.lookup key = some d' ∧ d.Reordered d' := by
  induction fields generalizing mid with
  | nil => simp at h
  | cons f fields ih =>
    cases mid with
    | nil => simp at hkeys
    | cons f' mid =>
      obtain ⟨k, c⟩ := f
      obtain ⟨k', c'⟩ := f'
      obtain ⟨rfl, hrest⟩ : k = k' ∧ fields.map Prod.fst = mid.map Prod.fst := by
        simpa using hkeys
      obtain ⟨hc, hvalues⟩ := List.forall₂_cons.mp hvalues
      rw [List.lookup_cons] at h ⊢
      cases hbeq : key == k with
      | true =>
        obtain rfl : c = d := by simpa [hbeq] using h
        exact ⟨c', rfl, hc⟩
      | false => exact ih hrest hvalues (by simpa [hbeq] using h)

namespace Reordered

variable {d : Document}

theorem eq_null (h : Document.null.Reordered d) : d = .null := by
  cases h
  rfl

theorem eq_bool {b : Bool} (h : (Document.bool b).Reordered d) : d = .bool b := by
  cases h
  rfl

theorem eq_text {s : String} (h : (Document.text s).Reordered d) : d = .text s := by
  cases h
  rfl

theorem eq_ofNat {n : Nat} (h : (ofNat n).Reordered d) : d = ofNat n := by
  cases h
  rfl

theorem exists_list {items : List Document} (h : (Document.list items).Reordered d) :
    ∃ items', d = .list items' ∧ List.Forall₂ Reordered items items' := by
  cases h with
  | list hitems => exact ⟨_, rfl, hitems⟩

/-- An object whose keys are different has the same values under them, in any order. -/
theorem exists_object (h : (Document.object fields).Reordered d)
    (hkeys : (fields.map Prod.fst).Nodup) :
    ∃ fields', d = .object fields' ∧ ∀ key c, fields.lookup key = some c →
      ∃ c', fields'.lookup key = some c' ∧ c.Reordered c' := by
  cases h with
  | @object _ mid fields' hsame hvalues hperm =>
    have hmid : (mid.map Prod.fst).Nodup := hsame ▸ hkeys
    have hfields' : (fields'.map Prod.fst).Nodup := (hperm.map Prod.fst).nodup_iff.mp hmid
    refine ⟨fields', rfl, fun key c hc => ?_⟩
    obtain ⟨c', hc', hreordered⟩ := lookup_reordered hsame hvalues hc
    refine ⟨c', ?_, hreordered⟩
    -- keys are different, so the order does not matter for a lookup
    rw [lookup_eq_some_iff hmid] at hc'
    exact (lookup_eq_some_iff hfields').mpr (hperm.mem_iff.mp hc')

/-- An alternative keeps its name. -/
theorem exists_variant {tag : String} {payload : Document}
    (h : (Document.object [(tag, payload)]).Reordered d) :
    ∃ payload', d = .object [(tag, payload')] ∧ payload.Reordered payload' := by
  cases h with
  | @object _ mid fields' hsame hvalues hperm =>
    cases mid with
    | nil => simp at hsame
    | cons f mid =>
      obtain ⟨rfl, hnil⟩ : tag = f.1 ∧ [] = mid := by simpa using hsame
      subst hnil
      obtain ⟨hpayload, -⟩ := List.forall₂_cons.mp hvalues
      obtain rfl := List.singleton_perm.mp hperm
      exact ⟨f.2, rfl, hpayload⟩

end Reordered

end Document

/-! ## Numbers that can be stored -/

/-- Does a number fit into 32 bits? -/
def fitsWord (n : Nat) : Bool := n < Document.wordBound

def Ty.fitsWords : Ty → Bool
  | .buffer _ rank => fitsWord rank
  | _ => true

def EffectSpec.fitsWords : EffectSpec → Bool
  | .allocatesResult slot => fitsWord slot
  | .freesOperand slot => fitsWord slot

def OpKind.fitsWords : OpKind → Bool
  | .retain count => fitsWord count
  | .generic _ effects => effects.all EffectSpec.fitsWords
  | _ => true

def ValueOrigin.fitsWords : ValueOrigin → Bool
  | .result o index => fitsWord o.index && fitsWord index
  | .argument b index => fitsWord b.index && fitsWord index

def Value.fitsWords (data : Value) : Bool := data.ty.fitsWords && data.origin.fitsWords

def Op.fitsWords (data : Op) : Bool :=
  data.kind.fitsWords && data.operands.all (fitsWord ·.index) &&
    data.results.all (fitsWord ·.index) && data.regions.all (fitsWord ·.index) &&
    data.parent.all (fitsWord ·.index)

def Block.fitsWords (data : Block) : Bool :=
  data.args.all (fitsWord ·.index) && data.ops.all (fitsWord ·.index) &&
    fitsWord data.parent.index

def Region.fitsWords (data : Region) : Bool :=
  data.blocks.all (fitsWord ·.index) && fitsWord data.parent.index

/-- Does every number in a routine fit into 32 bits? -/
def Routine.fitsWords (r : Routine) : Bool :=
  r.values.toList.all Value.fitsWords && r.ops.toList.all Op.fitsWords &&
    r.blocks.toList.all Block.fitsWords && r.regions.toList.all Region.fitsWords &&
    fitsWord r.root.index

/-! ## Reading back -/

open Document (ofNat)

/-- One thing reads back, however the fields of its stored form are ordered. -/
def Restores {α : Type} (write : α → Document) (read : Document → Option α) (a : α) : Prop :=
  ∀ d, (write a).Reordered d → read d = some a

/-- Lists read back item by item. -/
theorem listOf?_of_restores {α : Type} {write : α → Document} {read : Document → Option α}
    {l : List α} (h : ∀ a ∈ l, Restores write read a) {d : Document}
    (hd : (Document.list (l.map write)).Reordered d) : d.listOf? read = some l := by
  obtain ⟨items, rfl, hitems⟩ := hd.exists_list
  show items.mapM read = some l
  induction l generalizing items with
  | nil =>
    rw [List.forall₂_nil_left_iff.mp hitems]
    rfl
  | cons a l ih =>
    obtain ⟨c, rest, hc, hrest, rfl⟩ := List.forall₂_cons_left_iff.mp hitems
    rw [List.mapM_cons, h a (by simp) c hc,
      ih (fun b hb => h b (by simp [hb])) rest hrest (.list hrest)]
    rfl

theorem nat?_of_reordered {n : Nat} (hn : fitsWord n = true) {d : Document}
    (h : (ofNat n).Reordered d) : d.nat? = some n := by
  have hlt : n < Document.wordBound := of_decide_eq_true hn
  rw [h.eq_ofNat]
  show (if n < Document.wordBound then some n else none) = some n
  rw [if_pos hlt]

theorem ElemType.restores (e : ElemType) : Restores toDocument ofDocument? e := by
  intro d h
  rw [Document.Reordered.eq_text h]
  cases e <;> rfl

theorem Ty.restores {t : Ty} (hfits : t.fitsWords = true) : Restores toDocument ofDocument? t := by
  intro d h
  cases t with
  | scalar e =>
    obtain ⟨payload, rfl, hpayload⟩ := h.exists_variant
    simp [ofDocument?, Document.variant?, e.restores payload hpayload]
  | buffer e rank =>
    obtain ⟨payload, rfl, hpayload⟩ := h.exists_variant
    obtain ⟨fields, rfl, hfields⟩ := hpayload.exists_object (by simp)
    obtain ⟨elem, helem, he⟩ := hfields "elem" _ rfl
    obtain ⟨number, hnumber, hrank⟩ := hfields "rank" _ rfl
    simp [ofDocument?, Document.variant?, Document.object?, helem, hnumber, e.restores elem he,
      nat?_of_reordered hfits hrank]
  | ownership =>
    rw [h.eq_text]
    rfl

theorem EffectSpec.restores {e : EffectSpec} (hfits : e.fitsWords = true) :
    Restores toDocument ofDocument? e := by
  intro d h
  cases e with
  | allocatesResult slot =>
    obtain ⟨payload, rfl, hpayload⟩ := h.exists_variant
    simp [ofDocument?, Document.variant?, nat?_of_reordered hfits hpayload]
  | freesOperand slot =>
    obtain ⟨payload, rfl, hpayload⟩ := h.exists_variant
    simp [ofDocument?, Document.variant?, nat?_of_reordered hfits hpayload]

theorem OpKind.restores {k : OpKind} (hfits : k.fitsWords = true) :
    Restores toDocument ofDocument? k := by
  intro d h
  cases k with
  | routine name =>
    obtain ⟨payload, rfl, hpayload⟩ := h.exists_variant
    obtain ⟨fields, rfl, hfields⟩ := hpayload.exists_object (by simp)
    obtain ⟨text, htext, hname⟩ := hfields "name" _ rfl
    simp [ofDocument?, Document.variant?, Document.object?, htext, hname.eq_text, Document.text?]
  | retain count =>
    obtain ⟨payload, rfl, hpayload⟩ := h.exists_variant
    obtain ⟨fields, rfl, hfields⟩ := hpayload.exists_object (by simp)
    obtain ⟨number, hnumber, hcount⟩ := hfields "num_retained" _ rfl
    simp [ofDocument?, Document.variant?, Document.object?, hnumber,
      nat?_of_reordered hfits hcount]
  | generic name effects =>
    have heffects : ∀ e ∈ effects, Restores EffectSpec.toDocument EffectSpec.ofDocument? e :=
      fun e he => EffectSpec.restores (List.all_eq_true.mp hfits e he)
    obtain ⟨payload, rfl, hpayload⟩ := h.exists_variant
    obtain ⟨fields, rfl, hfields⟩ := hpayload.exists_object (by simp)
    obtain ⟨text, htext, hname⟩ := hfields "name" _ rfl
    obtain ⟨items, hitems, hlist⟩ := hfields "effects" _ rfl
    simp [ofDocument?, Document.variant?, Document.object?, htext, hname.eq_text, Document.text?,
      hitems, listOf?_of_restores heffects hlist]
  | _ =>
    -- the other kinds are stored under their name alone
    rw [h.eq_text]
    rfl

/-- What is stored as its number reads back. -/
theorem restores_number {α : Type} {mk : Nat → α} {index : α → Nat}
    (hmk : ∀ a, mk (index a) = a) {a : α} (hfits : fitsWord (index a) = true) :
    Restores (fun a => ofNat (index a)) (fun d => d.nat?.map mk) a := by
  intro d h
  show d.nat?.map mk = some a
  rw [nat?_of_reordered hfits h, Option.map_some, hmk]

theorem ValueId.restores {v : ValueId} (hfits : fitsWord v.index = true) :
    Restores toDocument ofDocument? v := restores_number (fun _ => rfl) hfits

theorem OpId.restores {o : OpId} (hfits : fitsWord o.index = true) :
    Restores toDocument ofDocument? o := restores_number (fun _ => rfl) hfits

theorem BlockId.restores {b : BlockId} (hfits : fitsWord b.index = true) :
    Restores toDocument ofDocument? b := restores_number (fun _ => rfl) hfits

theorem RegionId.restores {g : RegionId} (hfits : fitsWord g.index = true) :
    Restores toDocument ofDocument? g := restores_number (fun _ => rfl) hfits

theorem ValueOrigin.restores {origin : ValueOrigin} (hfits : origin.fitsWords = true) :
    Restores toDocument ofDocument? origin := by
  intro d h
  cases origin with
  | result o index =>
    obtain ⟨ho, hindex⟩ := Bool.and_eq_true_iff.mp hfits
    obtain ⟨payload, rfl, hpayload⟩ := h.exists_variant
    obtain ⟨fields, rfl, hfields⟩ := hpayload.exists_object (by simp)
    obtain ⟨op, hop, hopReads⟩ := hfields "op" _ rfl
    obtain ⟨number, hnumber, hnumberReads⟩ := hfields "index" _ rfl
    simp [ofDocument?, Document.variant?, Document.object?, hop, hnumber,
      OpId.restores ho op hopReads, nat?_of_reordered hindex hnumberReads]
  | argument b index =>
    obtain ⟨hb, hindex⟩ := Bool.and_eq_true_iff.mp hfits
    obtain ⟨payload, rfl, hpayload⟩ := h.exists_variant
    obtain ⟨fields, rfl, hfields⟩ := hpayload.exists_object (by simp)
    obtain ⟨block, hblock, hblockReads⟩ := hfields "block" _ rfl
    obtain ⟨number, hnumber, hnumberReads⟩ := hfields "index" _ rfl
    simp [ofDocument?, Document.variant?, Document.object?, hblock, hnumber,
      BlockId.restores hb block hblockReads, nat?_of_reordered hindex hnumberReads]

theorem Value.restores {data : Value} (hfits : data.fitsWords = true) :
    Restores toDocument ofDocument? data := by
  intro d h
  obtain ⟨hty, horigin⟩ := Bool.and_eq_true_iff.mp hfits
  obtain ⟨fields, rfl, hfields⟩ := h.exists_object (by simp)
  obtain ⟨ty, htyAt, htyReads⟩ := hfields "ty" _ rfl
  obtain ⟨origin, horiginAt, horiginReads⟩ := hfields "def" _ rfl
  simp [ofDocument?, Document.record?, htyAt, horiginAt, Ty.restores hty ty htyReads,
    ValueOrigin.restores horigin origin horiginReads]

/-- An absent parent is stored as null, which no number is. -/
theorem Op.parent_restores {parent : Option BlockId}
    (hfits : parent.all (fitsWord ·.index) = true) {d : Document}
    (h : (parentToDocument parent).Reordered d) : parentOfDocument? (some d) = some parent := by
  cases parent with
  | none =>
    rw [h.eq_null]
    rfl
  | some b =>
    have hread := BlockId.restores hfits d h
    have hnumber : d = ofNat b.index := h.eq_ofNat
    subst hnumber
    show (BlockId.ofDocument? (ofNat b.index)).map some = some (some b)
    rw [hread]
    rfl

theorem Op.restores {data : Op} (hfits : data.fitsWords = true) :
    Restores toDocument ofDocument? data := by
  intro d h
  simp only [Op.fitsWords, Bool.and_eq_true, List.all_eq_true] at hfits
  obtain ⟨⟨⟨⟨hkind, hoperands⟩, hresults⟩, hregions⟩, hparent⟩ := hfits
  obtain ⟨fields, rfl, hfields⟩ := h.exists_object (by simp)
  obtain ⟨kind, hkindAt, hkindReads⟩ := hfields "kind" _ rfl
  obtain ⟨operands, hoperandsAt, hoperandsRead⟩ := hfields "operands" _ rfl
  obtain ⟨results, hresultsAt, hresultsRead⟩ := hfields "results" _ rfl
  obtain ⟨regions, hregionsAt, hregionsRead⟩ := hfields "regions" _ rfl
  obtain ⟨parent, hparentAt, hparentReads⟩ := hfields "parent" _ rfl
  obtain ⟨erased, herasedAt, herasedReads⟩ := hfields "erased" _ rfl
  simp [ofDocument?, Document.record?, hkindAt, hoperandsAt, hresultsAt, hregionsAt, hparentAt,
    herasedAt, OpKind.restores hkind kind hkindReads,
    listOf?_of_restores (fun v hv => ValueId.restores (hoperands v hv)) hoperandsRead,
    listOf?_of_restores (fun v hv => ValueId.restores (hresults v hv)) hresultsRead,
    listOf?_of_restores (fun g hg => RegionId.restores (hregions g hg)) hregionsRead,
    parent_restores hparent hparentReads, herasedReads.eq_bool, Document.bool?]

theorem Block.restores {data : Block} (hfits : data.fitsWords = true) :
    Restores toDocument ofDocument? data := by
  intro d h
  simp only [Block.fitsWords, Bool.and_eq_true, List.all_eq_true] at hfits
  obtain ⟨⟨hargs, hops⟩, hparent⟩ := hfits
  obtain ⟨fields, rfl, hfields⟩ := h.exists_object (by simp)
  obtain ⟨args, hargsAt, hargsRead⟩ := hfields "args" _ rfl
  obtain ⟨ops, hopsAt, hopsRead⟩ := hfields "ops" _ rfl
  obtain ⟨parent, hparentAt, hparentReads⟩ := hfields "parent" _ rfl
  simp [ofDocument?, Document.record?, hargsAt, hopsAt, hparentAt,
    listOf?_of_restores (fun v hv => ValueId.restores (hargs v hv)) hargsRead,
    listOf?_of_restores (fun o ho => OpId.restores (hops o ho)) hopsRead,
    RegionId.restores hparent parent hparentReads]

theorem Region.restores {data : Region} (hfits : data.fitsWords = true) :
    Restores toDocument ofDocument? data := by
  intro d h
  simp only [Region.fitsWords, Bool.and_eq_true, List.all_eq_true] at hfits
  obtain ⟨hblocks, hparent⟩ := hfits
  obtain ⟨fields, rfl, hfields⟩ := h.exists_object (by simp)
  obtain ⟨blocks, hblocksAt, hblocksRead⟩ := hfields "blocks" _ rfl
  obtain ⟨parent, hparentAt, hparentReads⟩ := hfields "parent" _ rfl
  simp [ofDocument?, Document.record?, hblocksAt, hparentAt,
    listOf?_of_restores (fun b hb => BlockId.restores (hblocks b hb)) hblocksRead,
    OpId.restores hparent parent hparentReads]

theorem Routine.restores {r : Routine} (hfits : r.fitsWords = true) :
    Restores toDocument ofDocument? r := by
  intro d h
  simp only [Routine.fitsWords, Bool.and_eq_true, List.all_eq_true] at hfits
  obtain ⟨⟨⟨⟨hvalues, hops⟩, hblocks⟩, hregions⟩, hroot⟩ := hfits
  obtain ⟨fields, rfl, hfields⟩ := h.exists_object (by simp)
  obtain ⟨values, hvaluesAt, hvaluesRead⟩ := hfields "values" _ rfl
  obtain ⟨ops, hopsAt, hopsRead⟩ := hfields "ops" _ rfl
  obtain ⟨blocks, hblocksAt, hblocksRead⟩ := hfields "blocks" _ rfl
  obtain ⟨regions, hregionsAt, hregionsRead⟩ := hfields "regions" _ rfl
  obtain ⟨root, hrootAt, hrootReads⟩ := hfields "root" _ rfl
  simp [ofDocument?, Document.record?, hvaluesAt, hopsAt, hblocksAt, hregionsAt, hrootAt,
    listOf?_of_restores (fun v hv => Value.restores (hvalues v hv)) hvaluesRead,
    listOf?_of_restores (fun o ho => Op.restores (hops o ho)) hopsRead,
    listOf?_of_restores (fun b hb => Block.restores (hblocks b hb)) hblocksRead,
    listOf?_of_restores (fun g hg => Region.restores (hregions g hg)) hregionsRead,
    OpId.restores hroot root hrootReads]

/-- Storing a routine loses nothing, whatever its tables hold: it reads back from its stored form,
also with the fields of all objects in another order, and no other routine is stored like it. -/
theorem ofDocument?_reordered (r : Routine) (hfits : r.fitsWords = true) :
    Routine.ofDocument? r.toDocument = some r ∧
      (∀ d, r.toDocument.Reordered d → Routine.ofDocument? d = some r) ∧
      ∀ r' : Routine, r'.fitsWords = true → r'.toDocument = r.toDocument → r' = r := by
  have hread := Routine.restores hfits r.toDocument (.refl _)
  refine ⟨hread, Routine.restores hfits, ?_⟩
  intro r' hfits' hsame
  have hread' := Routine.restores hfits' r.toDocument (hsame ▸ .refl _)
  exact Option.some_inj.mp (hread'.symm.trans hread)

/-- A routine whose links lead nowhere, with an erased operation that no block lists. -/
def strayRoutine : Routine where
  values := #[⟨.buffer .f32 4294967295, .result ⟨7⟩ 3⟩]
  ops := #[{
    kind := .generic "view" [.freesOperand 9, .allocatesResult 0]
    operands := [⟨5⟩]
    results := []
    regions := []
    parent := none
    erased := true }]
  blocks := #[]
  regions := #[⟨[⟨4⟩], ⟨2⟩⟩]
  root := ⟨1⟩

/-- The fields of that routine in reverse, and those of its region too. -/
def strayFields : List (String × Document) :=
  [("root", ofNat 1),
   ("regions", .list [.object [("parent", ofNat 2), ("blocks", .list [ofNat 4])]]),
   ("blocks", .list []),
   ("ops", .list (strayRoutine.ops.toList.map Op.toDocument)),
   ("values", .list (strayRoutine.values.toList.map Value.toDocument))]

theorem strayFields_reordered : strayRoutine.toDocument.Reordered (.object strayFields) := by
  have hregion : (Region.toDocument ⟨[⟨4⟩], ⟨2⟩⟩).Reordered
      (.object [("parent", ofNat 2), ("blocks", .list [ofNat 4])]) :=
    .object rfl (.cons (.refl _) (.cons (.refl _) .nil)) (.swap _ _ _)
  refine .object ?_ ?_ (List.reverse_perm strayFields)
  · rfl
  · exact .cons (.refl _) (.cons (.refl _) (.cons (.refl _)
      (.cons (.list (.cons hregion .nil)) (.cons (.refl _) .nil))))

theorem ofDocument?_strayFields :
    strayRoutine.fitsWords = true ∧ Routine.ofDocument? (.object strayFields) = some strayRoutine :=
  have hfits : strayRoutine.fitsWords = true := by decide
  ⟨hfits, (ofDocument?_reordered strayRoutine hfits).2.1 _ strayFields_reordered⟩

end BufferOwnership
