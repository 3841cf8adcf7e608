import SchemaDoc.Proofs.Document.Ingestion

/-!
# Wider schemas

One schema is below another if it asks for no less in any place: its bounds are no looser, and its
tables declare no other names. That is exactly the case if whatever the first accepts is accepted by
the second. One direction goes down the two schemas at once. For the other, every schema is given a
bare value, and from bare values one is built that shows where two schemas part: in a text or list
of a length that only the first allows, in a list of one item, or in a table of one member.
-/

namespace SchemaDoc

namespace Schema

/-! ## The order of schemas -/

/-- One bound is below another, where a bound that is not positive bounds nothing. -/
def BoundBelow (bound other : Int64) : Prop :=
  other.toInt ≤ 0 ∨ 0 < bound.toInt ∧ bound.toInt ≤ other.toInt

/-- One schema is below another, place by place. -/
inductive Below : Schema → Schema → Prop where
  /-- Every schema is below the one of anything. -/
  | any (t : Schema) : Below t .any
  /-- Numbers. -/
  | number : Below .number .number
  /-- Truth values. -/
  | bool : Below .bool .bool
  /-- Texts whose bound is below. -/
  | string {bound other : Int64} (room : BoundBelow bound other) :
    Below (.string bound) (.string other)
  /-- Lists whose bound and items are below. -/
  | list {element item : Schema} {bound other : Int64} (room : BoundBelow bound other)
    (each : Below element item) : Below (.list element bound) (.list item other)
  /-- Tables whose names are all declared by the other, for a field that is above. -/
  | table {fields others : List (String × Schema)}
    (declared : ∀ f ∈ fields, f.1 ∈ Dictionary.keys others)
    (each : ∀ f ∈ fields, ∀ g ∈ others, f.1 = g.1 → Below f.2 g.2) :
    Below (.table fields) (.table others)

private theorem boundBelow_iff {bound other : Int64} :
    BoundBelow bound other ↔ ∀ length, Within bound length → Within other length := by
  unfold BoundBelow Within
  constructor
  · intro h length hb ho
    omega
  · intro h
    -- The least length that the other bound refuses has to be refused by the one as well.
    have beyond := h (other.toInt.toNat + 1)
    omega

/-- What is as a schema describes it is as every schema above it does. -/
theorem Below.inhabits {t u : Schema} (h : t.Below u) {v : Value} (hv : Inhabits t v) :
    Inhabits u v := by
  induction h generalizing v with
  | any t => exact .any v
  | number => exact hv
  | bool => exact hv
  | string room =>
    cases hv with
    | string length => exact .string (boundBelow_iff.mp room _ length)
  | list room below ih =>
    cases hv with
    | list length each =>
      apply Inhabits.list
      · exact boundBelow_iff.mp room _ length
      · intro v hv
        exact ih (each v hv)
  | @table fields others declared below ih =>
    cases hv with
    | table known each =>
      apply Inhabits.table
      · intro m hm
        obtain ⟨f, hf, hk⟩ := List.mem_map.mp (known m hm)
        rw [← hk]
        exact declared f hf
      · intro g hg m hm hk
        obtain ⟨f, hf, hfm⟩ := List.mem_map.mp (known m hm)
        apply ih f hf g hg (hfm.trans hk.symm)
        exact each f hf m hm hfm

/-! ## Values that tell schemas apart -/

/-- A value without parts, as the schema describes it. -/
def bare : Schema → Value
  | table _ => .table []
  | list _ _ => .list []
  | number => .number (.integer ⟨0, by decide, by decide⟩)
  | string _ => .string ""
  | bool => .bool false
  | any => .null

private theorem normal_bare (t : Schema) : t.bare.Normal := by
  cases t with
  | table fields => exact ⟨.nil, trivial⟩
  | list | number | string | bool | any => trivial

private theorem within_zero (bound : Int64) : Within bound 0 := fun h ↦ Int.le_of_lt h

private theorem inhabits_bare (t : Schema) : Inhabits t t.bare := by
  cases t with
  | table fields =>
    apply Inhabits.table
    · intro m hm
      cases hm
    · intro f hf m hm
      cases hm
  | list element bound =>
    apply Inhabits.list (within_zero bound)
    intro v hv
    cases hv
  | number => exact .number _
  | string bound => exact .string (within_zero bound)
  | bool => exact .bool _
  | any => exact .any _

private theorem inhabits_singleton {element : Schema} {bound : Int64} {v : Value}
    (hv : Inhabits element v) : Inhabits (.list element bound) (.list [v]) := by
  apply Inhabits.list
  · intro h
    exact h
  · intro w hw
    rw [List.mem_singleton.mp hw]
    exact hv

private theorem inhabits_member {fields : List (String × Schema)} (hs : Dictionary.Sorted fields)
    {f : String × Schema} (hf : f ∈ fields) {v : Value} (hv : Inhabits f.2 v) :
    Inhabits (.table fields) (.table [(f.1, v)]) := by
  apply Inhabits.table
  · intro m hm
    rw [List.mem_singleton.mp hm]
    exact List.mem_map_of_mem hf
  · intro g hg m hm hk
    rw [List.mem_singleton.mp hm] at hk ⊢
    rw [hs.eq_of_mem hg hf hk]
    exact hv

private theorem inhabits_replicate {element : Schema} {bound : Int64} {length : Nat}
    (h : Within bound length) :
    Inhabits (.list element bound) (.list (List.replicate length element.bare)) := by
  apply Inhabits.list
  · rw [List.length_replicate]
    exact h
  · intro v hv
    rw [List.eq_of_mem_replicate hv]
    exact inhabits_bare element

private theorem normal_replicate (element : Schema) (length : Nat) :
    (Value.list (List.replicate length element.bare)).Normal := by
  apply Value.normalItems_iff.mpr
  intro v hv
  rw [List.eq_of_mem_replicate hv]
  exact normal_bare element

private theorem normal_member (name : String) {v : Value} (hv : v.Normal) :
    (Value.table [(name, v)]).Normal :=
  ⟨List.pairwise_singleton _ _, hv, trivial⟩

private theorem inhabits_text_iff {bound : Int64} {length : Nat} :
    Inhabits (.string bound) (.string (String.ofList (List.replicate length 'a'))) ↔
      Within bound length := by
  have hl : (String.ofList (List.replicate length 'a')).length = length := by
    rw [String.length_ofList, List.length_replicate]
  constructor
  · intro h
    cases h with
    | string within =>
      rw [hl] at within
      exact within
  · intro within
    apply Inhabits.string
    rw [hl]
    exact within

private theorem below_of_inhabits {t u : Schema} (ht : t.Normal)
    (h : ∀ v : Value, v.Normal → Inhabits t v → Inhabits u v) : t.Below u := by
  -- The bare value of a schema shows which kind the other has; values with one part show what the
  -- other asks of that part.
  induction t using Schema.induct generalizing u with
  | any =>
    cases h _ (normal_bare .any) (inhabits_bare .any) with
    | any => exact .any _
  | number =>
    cases h _ (normal_bare .number) (inhabits_bare .number) with
    | any => exact .any _
    | number => exact .number
  | bool =>
    cases h _ (normal_bare .bool) (inhabits_bare .bool) with
    | any => exact .any _
    | bool => exact .bool
  | string bound =>
    cases h _ (normal_bare (.string bound)) (inhabits_bare (.string bound)) with
    | any => exact .any _
    | string =>
      apply Below.string
      apply boundBelow_iff.mpr
      intro length within
      apply inhabits_text_iff.mp
      exact h _ trivial (inhabits_text_iff.mpr within)
  | list element bound ih =>
    cases h _ (normal_bare (.list element bound)) (inhabits_bare (.list element bound)) with
    | any => exact .any _
    | list =>
      apply Below.list
      · apply boundBelow_iff.mpr
        intro length within
        have many := h _ (normal_replicate element length) (inhabits_replicate within)
        have room := (Inhabits.list_iff.mp many).1
        rw [List.length_replicate] at room
        exact room
      · apply ih ht
        intro v hv inhabits
        have one := h (.list [v]) ⟨hv, trivial⟩ (inhabits_singleton inhabits)
        exact (Inhabits.list_iff.mp one).2 v List.mem_cons_self
  | table fields ih =>
    cases h _ (normal_bare (.table fields)) (inhabits_bare (.table fields)) with
    | any => exact .any _
    | @table others =>
      have member {f : String × Schema} (hf : f ∈ fields) {v : Value} (hv : v.Normal)
          (inhabits : Inhabits f.2 v) : Inhabits (.table others) (.table [(f.1, v)]) :=
        h _ (normal_member f.1 hv) (inhabits_member ht.1 hf inhabits)
      apply Below.table
      · intro f hf
        have one := member hf (normal_bare f.2) (inhabits_bare f.2)
        exact (Inhabits.table_iff.mp one).1 _ List.mem_cons_self
      · intro f hf g hg hk
        apply ih f hf (normalFields_iff.mp ht.2 f hf)
        intro v hv inhabits
        have one := member hf hv inhabits
        exact (Inhabits.table_iff.mp one).2 g hg _ List.mem_cons_self hk.symm

end Schema

/-! ## Stored documents -/

/-- What is read under one schema can be read under another. -/
structure Schema.ReadAlso (t u : Schema) : Prop where
  /-- A document that can be copied under the one can be copied under the other. -/
  copied : ∀ {s : Shape} {d : Document s}, d.Reachable → ∀ c,
    ((Document.asType t).run d).answer = .ok c →
      ((Document.asType u).run d).answer = .ok ⟨c.document, u⟩
  /-- A text that is taken under the one is taken under the other. -/
  taken : ∀ {s : Shape} (text : Bytes) (d : Document s),
    ((CheckedDocument.unmarshal text).run ⟨d, t⟩).answer = .ok () →
      ((CheckedDocument.unmarshal text).run ⟨d, u⟩).answer = .ok ()

namespace Schema

/-- A payload without violation has none under a schema above. -/
theorem Below.check {t u : Schema} (h : t.Below u) (ht : t.Normal) (hu : u.Normal) {v : Value}
    (hv : v.Normal) (passed : t.check v = .ok ()) : u.check v = .ok () := by
  apply (checkAt_eq_ok_iff hu hv Path.root).mpr
  apply h.inhabits
  exact (checkAt_eq_ok_iff ht hv Path.root).mp passed

private theorem Below.readAlso {t u : Schema} (h : t.Below u) (ht : t.Normal) (hu : u.Normal) :
    t.ReadAlso u := by
  constructor
  · intro s d reached c hc
    obtain ⟨rfl, p, read, passed⟩ := Document.answer_asType_eq_ok_iff.mp hc
    have normal : (Payload.toValue p).Normal := reached.inStep.normal_of_reading read
    exact Document.answer_asType_eq_ok_iff.mpr ⟨rfl, p, read, h.check ht hu normal passed⟩
  · intro s text d taken
    change ((CheckedDocument.unmarshal text).result ⟨d, t⟩).1 = .ok () at taken
    change ((CheckedDocument.unmarshal text).result ⟨d, u⟩).1 = .ok ()
    rw [CheckedDocument.result_unmarshal] at taken ⊢
    cases hd : Payload.decode s text with
    | error e =>
      rw [hd] at taken
      cases taken
    | ok p =>
      rw [hd] at taken
      dsimp only at taken ⊢
      rw [Payload.check_eq] at taken ⊢
      cases hc : t.check (Payload.toValue p) with
      | error v =>
        rw [hc] at taken
        cases taken
      | ok passed =>
        rw [h.check ht hu (Payload.normal_of_decode hd) hc]

/-- A schema is below another exactly if every value that it accepts is accepted by the other. What
is stored under the one is then read under the other, and otherwise there is a value that the one
accepts and the other refuses. -/
theorem below_iff_accepts {t u : Schema} (ht : t.Normal) (hu : u.Normal) :
    (t.Below u ↔ ∀ v : Value, v.Normal → t.accepts v = true → u.accepts v = true) ∧
      (t.Below u → t.ReadAlso u) ∧
      (¬t.Below u → ∃ v : Value, v.Normal ∧ t.accepts v = true ∧ u.accepts v = false) := by
  have iff : t.Below u ↔ ∀ v : Value, v.Normal → t.accepts v = true → u.accepts v = true := by
    constructor
    · intro h v hv accepted
      rw [accepts_iff_inhabits hu hv]
      exact h.inhabits ((accepts_iff_inhabits ht hv).mp accepted)
    · intro h
      apply below_of_inhabits ht
      intro v hv inhabits
      exact (accepts_iff_inhabits hu hv).mp (h v hv ((accepts_iff_inhabits ht hv).mpr inhabits))
  refine ⟨iff, fun h ↦ h.readAlso ht hu, ?_⟩
  intro apart
  apply Classical.byContradiction
  intro none
  apply apart
  apply iff.mpr
  intro v hv accepted
  cases refused : u.accepts v with
  | true => rfl
  | false => exact absurd ⟨v, hv, accepted, refused⟩ none

/-- Names of at most three characters may become longer and more, and ages may stand beside them.
The other way round some table is refused. -/
theorem names_with_ages_are_wider :
    (Schema.table [("names", .list (.string 3) 2)]).ReadAlso
      (.table [("ages", .list .number 0), ("names", .list (.string 0) 4)]) ∧
    ∃ v : Value, v.Normal ∧
      (Schema.table [("ages", .list .number 0), ("names", .list (.string 0) 4)]).accepts v = true ∧
      (Schema.table [("names", .list (.string 3) 2)]).accepts v = false := by
  have narrow : (Schema.table [("names", .list (.string 3) 2)]).Normal :=
    ⟨by unfold Dictionary.Sorted; decide, trivial, trivial⟩
  have wide : (Schema.table [("ages", .list .number 0), ("names", .list (.string 0) 4)]).Normal :=
    ⟨by unfold Dictionary.Sorted; decide, trivial, trivial, trivial⟩
  constructor
  · apply (below_iff_accepts narrow wide).2.1
    have names : Below (.list (.string 3) 2) (.list (.string 0) 4) :=
      .list (.inr (by decide)) (.string (.inl (by decide)))
    apply Below.table
    · decide
    · simpa using names
  · apply (below_iff_accepts wide narrow).2.2
    intro h
    cases h with
    | table declared => exact absurd (declared ("ages", .list .number 0) (by simp)) (by decide)

end Schema

end SchemaDoc
