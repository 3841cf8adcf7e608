import SchemaDoc.Proofs.Schema.Conformance

/-!
# The first breach

The checker finds nothing exactly in the values that are as their schema describes them, and in
any other value it finds what is broken first. The loops of the checker stop at the first failure,
and one induction over the schema carries that from the parts of a value to the whole.
-/

namespace SchemaDoc

namespace Schema

/-! ## Loops -/

private theorem forM_cases {α : Type} (check : α → Verdict) (as : List α) :
    (forM as check = .ok () ∧ ∀ a ∈ as, check a = .ok ()) ∨
    ∃ before a after e, as = before ++ a :: after ∧ (∀ b ∈ before, check b = .ok ()) ∧
      check a = .error e ∧ forM as check = .error e := by
  induction as with
  | nil => exact .inl ⟨rfl, by simp⟩
  | cons a as ih =>
    rw [List.forM_cons]
    cases ha : check a with
    | error e => exact .inr ⟨[], a, as, e, rfl, by simp, ha, rfl⟩
    | ok u =>
      rcases ih with ⟨h, all⟩ | ⟨before, b, after, e, rfl, all, hb, h⟩
      · exact .inl ⟨h, List.forall_mem_cons.mpr ⟨ha, all⟩⟩
      · have passed : ∀ c ∈ a :: before, check c = .ok () := List.forall_mem_cons.mpr ⟨ha, all⟩
        exact .inr ⟨a :: before, b, after, e, rfl, passed, hb, h⟩

/-- A walk passes if every element does. -/
theorem forM_eq_ok_iff {α : Type} {check : α → Verdict} {as : List α} :
    forM as check = .ok () ↔ ∀ a ∈ as, check a = .ok () := by
  rcases forM_cases check as with ⟨h, all⟩ | ⟨before, a, after, e, rfl, -, ha, h⟩
  · exact iff_of_true h all
  · apply iff_of_false
    · rw [h]
      intro h
      cases h
    · intro all
      have passed : check a = .ok () := all a (by simp)
      rw [ha] at passed
      cases passed

/-- A walk in which every element but one passes finds what it finds in that one. -/
theorem forM_eq_of_others {α : Type} {check : α → Verdict} {as : List α} {a : α} (ha : a ∈ as)
    (others : ∀ b ∈ as, b ≠ a → check b = .ok ()) : forM as check = check a := by
  rcases forM_cases check as with ⟨h, all⟩ | ⟨before, b, after, e, rfl, -, hb, h⟩
  · rw [h, all a ha]
  · by_cases hab : b = a
    · rw [h, ← hab, hb]
    · have passed : check b = .ok () := others b (by simp) hab
      rw [hb] at passed
      cases passed

private theorem checkItems_eq_forM (checkItem : Value → String → Verdict) (path : String)
    (index : Nat) (items : List Value) : checkItems checkItem path index items =
      forM (items.zipIdx index) fun p ↦ checkItem p.1 (Path.item path p.2) := by
  induction items generalizing index with
  | nil => rfl
  | cons v items ih =>
    rw [List.zipIdx_cons, List.forM_cons, checkItems, ih]
    cases checkItem v (Path.item path index) <;> rfl

private theorem getElem?_of_zipIdx {α : Type} {as : List α} {before after : List (α × Nat)} {a : α}
    {index : Nat} (h : as.zipIdx = before ++ (a, index) :: after) :
    as[index]? = some a ∧ ∀ i < index, ∀ b, as[i]? = some b → (b, i) ∈ before := by
  have hat : as.zipIdx[before.length]? = some (a, index) := by simp [h]
  rw [List.getElem?_zipIdx, Option.map_eq_some_iff] at hat
  obtain ⟨b, hb, he⟩ := hat
  obtain ⟨rfl, rfl⟩ : b = a ∧ before.length = index := by simpa using he
  refine ⟨hb, fun i hi c hc ↦ ?_⟩
  have hz : as.zipIdx[i]? = some (c, i) := by simp [List.getElem?_zipIdx, hc]
  rw [h, List.getElem?_append_left hi] at hz
  exact List.mem_of_getElem? hz

/-- A key passes if it is declared. -/
def checkKey (fields : Dictionary Schema) (path : String) (m : String × Value) : Verdict :=
  if Dictionary.contains m.1 fields then .ok () else .error (.extraField (Path.field path m.1))

private theorem declared_of_checkKey {fields : Dictionary Schema} {path : String}
    {m : String × Value} (h : checkKey fields path m = .ok ()) : m.1 ∈ Dictionary.keys fields := by
  rw [checkKey] at h
  split at h
  · next hc => exact Dictionary.contains_eq_true_iff.mp hc
  · cases h

private theorem undeclared_of_checkKey {fields : Dictionary Schema} {path : String}
    {m : String × Value} {e : Violation} (h : checkKey fields path m = .error e) :
    m.1 ∉ Dictionary.keys fields ∧ e = .extraField (Path.field path m.1) := by
  rw [checkKey] at h
  split at h
  · cases h
  · next hc =>
    exact ⟨mt Dictionary.contains_eq_true_iff.mpr hc, (Except.error.inj h).symm⟩

/-- The keys are walked through in the order of the members. -/
theorem checkKeys_eq_forM (fields : Dictionary Schema) (path : String)
    (members : Dictionary Value) :
    checkKeys fields path members = forM members (checkKey fields path) := by
  induction members with
  | nil => rfl
  | cons m members ih =>
    rw [List.forM_cons, checkKeys, ih, checkKey]
    split <;> rfl

/-- A field that is there is checked, and one that is not passes. -/
def checkField (members : Dictionary Value) (path : String) (f : String × Schema) : Verdict :=
  match Dictionary.find? f.1 members with
  | none => .ok ()
  | some v => checkAt f.2 v (Path.field path f.1)

private theorem checkField_of_mem {members : Dictionary Value} (hs : Dictionary.Sorted members)
    {f : String × Schema} {m : String × Value} (hm : m ∈ members) (hk : f.1 = m.1)
    (path : String) : checkField members path f = f.2.checkAt m.2 (Path.field path f.1) := by
  have hf : Dictionary.find? f.1 members = some m.2 := hs.find?_eq_some_iff.mpr (hk ▸ hm)
  rw [checkField, hf]

private theorem mem_of_checkField {members : Dictionary Value} {path : String} {f : String × Schema}
    {e : Violation} (h : checkField members path f = .error e) :
    ∃ v, (f.1, v) ∈ members ∧ f.2.checkAt v (Path.field path f.1) = .error e := by
  rw [checkField] at h
  split at h
  · cases h
  · next v hv => exact ⟨v, Dictionary.mem_of_find? hv, h⟩

/-- The fields are walked through in their own order. -/
theorem checkFields_eq_forM (fields : List (String × Schema)) (members : Dictionary Value)
    (path : String) :
    checkFields fields members path = forM fields (checkField members path) := by
  induction fields with
  | nil => rfl
  | cons f fields ih =>
    rw [List.forM_cons, checkFields, ih, checkField]
    cases Dictionary.find? f.1 members with
    | none => rfl
    | some v =>
      dsimp only
      cases checkAt f.2 v (Path.field path f.1) <;> rfl

/-! ## Bounds -/

/-- A bound that a length exceeds is in effect. -/
theorem effective?_of_not_within {bound : Int64} {length : Nat} (h : ¬Within bound length) :
    effective? bound = some bound.toInt.toNat ∧ bound.toInt.toNat < length := by
  have hb : 0 < bound.toInt := by
    unfold Within at h
    omega
  refine ⟨by rw [effective?, if_pos hb], ?_⟩
  unfold Within at h
  omega

private theorem not_lt_of_within {bound : Int64} {length max : Nat} (h : Within bound length)
    (hm : effective? bound = some max) : ¬max < length := by
  unfold effective? at hm
  unfold Within at h
  split at hm
  · next hb =>
    have := h hb
    have := Option.some.inj hm
    omega
  · cases hm

/-- A list is refused for its length if that is not within the bound. -/
theorem checkLength_eq (bound : Int64) (length : Nat) (path : String) :
    (Within bound length ∧ checkLength bound length path = .ok ()) ∨
    (¬Within bound length ∧
      checkLength bound length path = .error (.tooLong path bound.toInt.toNat length)) := by
  by_cases h : Within bound length
  · refine .inl ⟨h, ?_⟩
    rw [checkLength]
    split
    · next hm => rw [if_neg (not_lt_of_within h hm)]
    · rfl
  · obtain ⟨hm, hl⟩ := effective?_of_not_within h
    refine .inr ⟨h, ?_⟩
    rw [checkLength, hm]
    exact if_pos hl

end Schema

/-! ## Verdicts -/

/-- A verdict tells of a value whether it is as its schema describes it, and else what is broken
first. -/
def Verdict.Tells (s : Schema) (v : Value) (path : String) (verdict : Verdict) : Prop :=
  match verdict with
  | .ok () => Inhabits s v
  | .error e => ∃ place breach, BreaksFirst s v place breach ∧
      e = breach.violation (place.pathFrom path)

namespace Verdict

private theorem Tells.whole {s : Schema} {v : Value} {breach : Breach} (h : Breaks s v [] breach)
    (path : String) : Tells s v path (.error (breach.violation path)) :=
  ⟨[], breach, ⟨h, fun _ _ _ hlt ↦ by cases hlt⟩, rfl⟩

private theorem Tells.undeclared {fields : List (String × Schema)}
    {before after : List (String × Value)} {m : String × Value} (hm : m.1 ∉ Dictionary.keys fields)
    (hs : Dictionary.Sorted (before ++ m :: after))
    (hb : ∀ n ∈ before, n.1 ∈ Dictionary.keys fields) (path : String) :
    Tells (.table fields) (.table (before ++ m :: after)) path
      (.error (.extraField (Path.field path m.1))) := by
  refine ⟨[.undeclared m.1], .undeclared, ⟨.undeclared (by simp) hm, ?_⟩, rfl⟩
  intro earlier other h hlt
  cases h with
  | wrongType h => exact h trivial
  | field =>
    rcases List.cons_lex_cons_iff.mp hlt with hv | ⟨he, -⟩
    · cases hv
    · cases he
  | @undeclared _ _ n hn hu =>
    have hlt : n.1 < m.1 := by
      rcases List.cons_lex_cons_iff.mp hlt with hv | ⟨-, hn⟩
      · cases hv with
        | undeclared h => exact h
      · cases hn
    exact hu (hb n (hs.mem_of_lt hn hlt))

private theorem Tells.field {before after : List (String × Schema)} {f : String × Schema}
    {members : List (String × Value)} {v : Value} {path : String} {e : Violation}
    (hs : Dictionary.Sorted (before ++ f :: after)) (hm : Dictionary.Sorted members)
    (hk : ∀ m ∈ members, m.1 ∈ Dictionary.keys (before ++ f :: after)) (hv : (f.1, v) ∈ members)
    (h : Tells f.2 v (Path.field path f.1) (.error e))
    (hb : ∀ g ∈ before, ∀ m ∈ members, g.1 = m.1 → Inhabits g.2 m.2) :
    Tells (.table (before ++ f :: after)) (.table members) path (.error e) := by
  obtain ⟨place, breach, ⟨hbr, first⟩, rfl⟩ := h
  refine ⟨.field f.1 :: place, breach, ⟨.field (by simp) hv rfl hbr, ?_⟩, rfl⟩
  intro earlier other h hlt
  cases h with
  | wrongType h => exact h trivial
  | undeclared hn hu => exact hu (hk _ hn)
  | @field _ _ g n inner _ hg hn he hi =>
    have hfg : g.1 < f.1 ∨ g.1 = f.1 ∧ inner.Before place := by
      rcases List.cons_lex_cons_iff.mp hlt with hv | ⟨he, hi⟩
      · cases hv with
        | field h => exact .inl h
      · exact .inr ⟨Visit.field.inj he, hi⟩
    rcases hfg with hlt | ⟨heq, hin⟩
    · exact hi.not_inhabits (hb g (hs.mem_of_lt hg hlt) n hn he)
    · obtain rfl : g = f := hs.eq_of_mem hg (by simp) heq
      obtain rfl : n = (g.1, v) := hm.eq_of_mem hn hv he.symm
      exact first _ _ hi hin

private theorem Tells.item {element : Schema} {bound : Int64} {items : List Value} {index : Nat}
    {v : Value} {path : String} {e : Violation} (hl : Schema.Within bound items.length)
    (hv : items[index]? = some v) (h : Tells element v (Path.item path index) (.error e))
    (hb : ∀ i < index, ∀ w, items[i]? = some w → Inhabits element w) :
    Tells (.list element bound) (.list items) path (.error e) := by
  obtain ⟨place, breach, ⟨hbr, first⟩, rfl⟩ := h
  refine ⟨.item index :: place, breach, ⟨.item hv hbr, ?_⟩, rfl⟩
  intro earlier other h hlt
  cases h with
  | wrongType h => exact h trivial
  | tooManyItems h => exact h hl
  | @item _ _ _ i w inner _ hw hi =>
    rcases List.cons_lex_cons_iff.mp hlt with hs | ⟨he, hn⟩
    · cases hs with
      | item h => exact hi.not_inhabits (hb i h w hw)
    · obtain rfl : i = index := Visit.item.inj he
      obtain rfl : v = w := Option.some.inj (hv.symm.trans hw)
      exact first _ _ hi hn

end Verdict

namespace Schema

private theorem tells_table {fields : List (String × Schema)} {members : List (String × Value)}
    (hs : Dictionary.Sorted fields) (hm : Dictionary.Sorted members)
    (each : ∀ f ∈ fields, ∀ m ∈ members, ∀ path, (f.2.checkAt m.2 path).Tells f.2 m.2 path)
    (path : String) :
    ((table fields).checkAt (.table members) path).Tells (table fields) (.table members) path := by
  have hfield {f : String × Schema} {m : String × Value} (hf : f ∈ fields) (hmem : m ∈ members)
      (hk : f.1 = m.1) (hok : checkField members path f = .ok ()) : Inhabits f.2 m.2 := by
    have ht := each f hf m hmem (Path.field path f.1)
    rwa [← checkField_of_mem hm hmem hk, hok] at ht
  rw [checkAt, checkKeys_eq_forM, checkFields_eq_forM]
  rcases forM_cases (checkKey fields path) members with
    ⟨hk, all⟩ | ⟨before, m, after, e, rfl, all, hme, hk⟩
  · have declared : ∀ m ∈ members, m.1 ∈ Dictionary.keys fields :=
      fun m hmem ↦ declared_of_checkKey (all m hmem)
    rw [hk]
    rcases forM_cases (checkField members path) fields with
      ⟨hf, all⟩ | ⟨before, f, after, e, rfl, all, hfe, hf⟩
    · rw [hf]
      exact .table declared fun f hmf m hmem hk ↦ hfield hmf hmem hk (all f hmf)
    · obtain ⟨v, hv, he⟩ := mem_of_checkField hfe
      have ht := each f (by simp) (f.1, v) hv (Path.field path f.1)
      rw [he] at ht
      rw [hf]
      exact .field hs hm declared hv ht fun g hg n hn hk ↦
        hfield (List.mem_append_left _ hg) hn hk (all g hg)
  · obtain ⟨hu, rfl⟩ := undeclared_of_checkKey hme
    rw [hk]
    exact .undeclared hu hm (fun n hn ↦ declared_of_checkKey (all n hn)) path

private theorem tells_list {element : Schema} {bound : Int64} {items : List Value}
    (each : ∀ v ∈ items, ∀ path, (element.checkAt v path).Tells element v path) (path : String) :
    ((list element bound).checkAt (.list items) path).Tells (list element bound) (.list items)
      path := by
  have hitem {i : Nat} {v : Value} (hv : items[i]? = some v)
      (hok : element.checkAt v (Path.item path i) = .ok ()) : Inhabits element v := by
    have ht := each v (List.mem_of_getElem? hv) (Path.item path i)
    rwa [hok] at ht
  rw [checkAt, checkListWith]
  rcases checkLength_eq bound items.length path with ⟨hl, hc⟩ | ⟨hl, hc⟩
  · rw [hc, checkItems_eq_forM]
    rcases forM_cases (fun p ↦ element.checkAt p.1 (Path.item path p.2)) (items.zipIdx 0) with
      ⟨hi, all⟩ | ⟨before, ⟨v, index⟩, after, e, hs, all, hve, hi⟩
    · rw [hi]
      refine .list hl fun v hv ↦ ?_
      obtain ⟨i, hiv⟩ := List.mem_iff_getElem?.mp hv
      exact hitem hiv (all (v, i) (List.mem_zipIdx_iff_getElem?.mpr hiv))
    · obtain ⟨hv, smaller⟩ := getElem?_of_zipIdx hs
      have ht := each v (List.mem_of_getElem? hv) (Path.item path index)
      rw [hve] at ht
      rw [hi]
      exact .item hl hv ht fun i hlt w hw ↦ hitem hw (all (w, i) (smaller i hlt w hw))
  · rw [hc]
    exact .whole (.tooManyItems hl) path

private theorem tells_wrongType {s : Schema} {v : Value} (h : ¬s.kind.Covers v) (path : String) :
    (s.checkAt v path).Tells s v path := by
  have ht := Verdict.Tells.whole (.wrongType h) path
  cases s <;> cases v <;> first | exact ht | exact absurd trivial h

/-- Checking a value tells what is broken first in it. -/
theorem tells_checkAt (s : Schema) (hs : s.Normal) (v : Value) (hv : v.Normal) (path : String) :
    (s.checkAt v path).Tells s v path := by
  induction s using Schema.induct generalizing v path with
  | table fields ih =>
    cases v with
    | table members =>
      refine tells_table hs.1 hv.1 (fun f hf m hm path ↦ ?_) path
      exact ih f hf (normalFields_iff.mp hs.2 f hf) m.2 (Value.normalMembers_iff.mp hv.2 m hm) path
    | null | bool | number | string | list => exact tells_wrongType id path
  | list element bound ih =>
    cases v with
    | list items =>
      exact tells_list (fun v hm path ↦ ih hs v (Value.normalItems_iff.mp hv v hm) path) path
    | null | bool | number | string | table => exact tells_wrongType id path
  | string bound =>
    cases v with
    | string t =>
      rw [checkAt]
      by_cases hw : Within bound t.length
      · split
        · next max hm => rw [if_neg (not_lt_of_within hw hm)]; exact .string hw
        · exact .string hw
      · obtain ⟨hm, hl⟩ := effective?_of_not_within hw
        simp only [hm]
        rw [if_pos hl]
        exact .whole (.tooManyCharacters hw) path
    | null | bool | number | list | table => exact tells_wrongType id path
  | number =>
    cases v with
    | number n => exact .number n
    | null | bool | string | list | table => exact tells_wrongType id path
  | bool =>
    cases v with
    | bool b => exact .bool b
    | null | number | string | list | table => exact tells_wrongType id path
  | any => exact .any v

/-- Checking finds nothing exactly in the values that are as their schema describes them. -/
theorem checkAt_eq_ok_iff {s : Schema} (hs : s.Normal) {v : Value} (hv : v.Normal)
    (path : String) : s.checkAt v path = .ok () ↔ Inhabits s v := by
  have ht := tells_checkAt s hs v hv path
  cases hc : s.checkAt v path with
  | ok u =>
    rw [hc] at ht
    exact ⟨fun _ ↦ ht, fun _ ↦ rfl⟩
  | error e =>
    rw [hc] at ht
    obtain ⟨place, breach, ⟨hb, -⟩, -⟩ := ht
    constructor
    · intro h
      cases h
    · intro hi
      exact absurd hi hb.not_inhabits

/-- A schema accepts the values that are as it describes. -/
theorem accepts_iff_inhabits {s : Schema} (hs : s.Normal) {v : Value} (hv : v.Normal) :
    s.accepts v = true ↔ Inhabits s v := by
  rw [← checkAt_eq_ok_iff hs hv Path.root, accepts, check]
  cases s.checkAt v Path.root with
  | ok u => exact iff_of_true rfl rfl
  | error e => constructor <;> intro h <;> cases h

private theorem breaksFirst_unique {s : Schema} (hs : s.Normal) {v : Value} (hv : v.Normal)
    {p q : Place} {b c : Breach} (hp : BreaksFirst s v p b) (hq : BreaksFirst s v q c) :
    p = q ∧ b = c := by
  rcases hp.1.trichotomy hs hv hq.1 with h | h | h
  · exact absurd h (hq.2 p b hp.1)
  · exact absurd h (hp.2 q c hq.1)
  · exact h

private theorem inhabits_of_before {s t : Schema} (hs : s.Normal) {v w : Value} (hv : v.Normal)
    {place earlier : Place} {breach : Breach} (hb : BreaksFirst s v place breach)
    (hp : Part s v earlier t w) (hlt : earlier.Before place) (ha : ¬earlier <+: place) :
    Inhabits t w := by
  obtain ⟨ht, hw⟩ := hp.normal hs hv
  refine (checkAt_eq_ok_iff ht hw Path.root).mp ?_
  have tells := tells_checkAt t ht w hw Path.root
  cases hc : t.checkAt w Path.root with
  | ok u => rfl
  | error e =>
    rw [hc] at tells
    obtain ⟨inner, other, ⟨hi, -⟩, -⟩ := tells
    exact absurd (Place.append_before hlt ha inner) (hb.2 _ other (hp.breaks hi))

/-- The checker passes exactly the values that are as their schema describes them. In any other
value it reports what is broken first, at the path of its place, and all that is visited before is
as its schema describes it. -/
theorem check_reports_first_breach (s : Schema) (hs : s.Normal) (v : Value) (hv : v.Normal) :
    (s.check v = .ok () ↔ Inhabits s v) ∧ (s.accepts v = true ↔ Inhabits s v) ∧
      ∀ e, s.check v = .error e ↔
        ∃ place breach, BreaksFirst s v place breach ∧ e = breach.violation place.path ∧
          ∀ earlier t w, Part s v earlier t w → earlier.Before place → ¬earlier <+: place →
            Inhabits t w := by
  have hok : s.check v = .ok () ↔ Inhabits s v := checkAt_eq_ok_iff hs hv Path.root
  have tells := tells_checkAt s hs v hv Path.root
  refine ⟨hok, ?_, ?_⟩
  · rw [← hok, accepts]
    cases s.check v <;> simp [Except.toBool]
  intro e
  constructor
  · intro he
    rw [check] at he
    rw [he] at tells
    obtain ⟨place, breach, hb, rfl⟩ := tells
    refine ⟨place, breach, hb, rfl, ?_⟩
    intro earlier t w hp hlt ha
    exact inhabits_of_before hs hv hb hp hlt ha
  · rintro ⟨place, breach, hb, rfl, -⟩
    cases hc : s.checkAt v Path.root with
    | ok u => exact absurd ((checkAt_eq_ok_iff hs hv Path.root).mp hc) hb.1.not_inhabits
    | error e =>
      rw [hc] at tells
      obtain ⟨p, b, hp, rfl⟩ := tells
      obtain ⟨rfl, rfl⟩ := breaksFirst_unique hs hv hb hp
      exact hc

/-- Rows of a name and some scores: the second row has an undeclared key beside a score that is no
number, and the key is broken first. -/
theorem undeclared_key_before_nested_item :
    ∃ place breach,
      BreaksFirst (.list (.table [("name", .string 3), ("scores", .list .number 0)]) 5)
        (.list [.table [("name", .string "Ann")],
          .table [("scores", .list [.null]), ("size", .null)]]) place breach ∧
        ⟨"$root[1].size", "no undeclared fields", "undeclared field present"⟩ =
          breach.violation place.path := by
  obtain ⟨place, breach, hb, he, -⟩ :=
    ((check_reports_first_breach
      (.list (.table [("name", .string 3), ("scores", .list .number 0)]) 5)
      ⟨by unfold Dictionary.Sorted; decide, trivial, trivial, trivial⟩
      (.list [.table [("name", .string "Ann")],
        .table [("scores", .list [.null]), ("size", .null)]])
      ⟨⟨by unfold Dictionary.Sorted; decide, trivial, trivial⟩,
        ⟨by unfold Dictionary.Sorted; decide, ⟨trivial, trivial⟩, trivial, trivial⟩, trivial⟩).2.2
      ⟨"$root[1].size", "no undeclared fields", "undeclared field present"⟩).mp (by rfl)
  exact ⟨place, breach, hb, he⟩

end Schema

end SchemaDoc
