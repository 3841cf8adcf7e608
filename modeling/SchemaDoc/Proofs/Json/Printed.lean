import SchemaDoc.Proofs.Json.Locality
import SchemaDoc.Proofs.Number.Shortest

/-!
# Printed values are spelled

Whatever is printed, on one line or on several, is one value by the grammar, in UTF-8. It says the
value that was printed, if that has no double and is not nested too deeply.
-/

namespace SchemaDoc.Json

/-! ## Layout -/

/-- Some texts, each behind a gap, and the gap behind a comma unless it is the `first`. -/
def laid (gap : Bytes) : Bool → List Bytes → Bytes
  | _, [] => []
  | true, t :: ts => gap ++ (t ++ laid gap false ts)
  | false, t :: ts => ascii ',' :: (gap ++ (t ++ laid gap false ts))

private theorem joined_eq_laid (first : Bool) (ts : List Bytes) :
    joined first ts = laid [] first ts := by
  induction ts generalizing first with
  | nil => rfl
  | cons t ts ih => cases first <;> simp [joined, laid, ih]

/-- A new line is blank. -/
theorem blank_newLine (level : Nat) : Blank (newLine level) := by
  intro b hb
  rcases List.mem_cons.mp hb with rfl | hb
  · decide
  · obtain rfl := List.eq_of_mem_replicate hb
    decide

/-- Parts may be laid out with any gap of blanks. -/
theorem Parts.laid {α : Type} {text : α → Bytes → Prop} {gap close : Bytes} (hg : Blank gap)
    (hc : Blank close) {print : α → Bytes} {xs : List α} (each : ∀ x ∈ xs, text x (print x))
    (bracket : Bracket) (first : Bool) :
    Parts text bracket first xs
      (laid gap first (xs.map print) ++ (close ++ [bracket.closing])) := by
  induction xs generalizing first with
  | nil => exact .close hc
  | cons x xs ih =>
    obtain ⟨hx, hxs⟩ := List.forall_mem_cons.mp each
    have others := ih hxs false
    cases first with
    | true =>
      have part := Parts.part (.first hg) hx others
      simpa [Json.laid] using part
    | false =>
      have part := Parts.part (.comma blank_nil hg) hx others
      simpa [Json.laid] using part

private theorem printPrettyItems_eq_laid (level : Nat) (items : List Value) :
    printPrettyItems level items = laid (newLine level) true (items.map (printPretty level)) := by
  have behind (v : Value) (items : List Value) : printPrettyItems level (v :: items) =
      newLine level ++ (printPretty level v ++
        laid (newLine level) false (items.map (printPretty level))) := by
    induction items generalizing v with
    | nil => simp [printPrettyItems, laid]
    | cons w items ih => rw [printPrettyItems, ih]; simp [laid]
  cases items with
  | nil => rfl
  | cons v items => exact behind v items

/-- The text of a member on a line of its own. -/
def printPrettyMember (level : Nat) (m : String × Value) : Bytes :=
  printString m.1 ++ ascii ':' :: ascii ' ' :: printPretty level m.2

private theorem printPrettyMembers_eq_laid (level : Nat) (members : List (String × Value)) :
    printPrettyMembers level members =
      laid (newLine level) true (members.map (printPrettyMember level)) := by
  have behind (m : String × Value) (members : List (String × Value)) :
      printPrettyMembers level (m :: members) = newLine level ++ (printPrettyMember level m ++
        laid (newLine level) false (members.map (printPrettyMember level))) := by
    induction members generalizing m with
    | nil => simp [printPrettyMembers, laid, printPrettyMember]
    | cons n members ih => rw [printPrettyMembers, ih]; simp [laid, printPrettyMember]
  cases members with
  | nil => rfl
  | cons m members => exact behind m members

private theorem printPretty_list (level : Nat) (items : List Value) :
    ∃ gap close, Blank gap ∧ Blank close ∧ printPretty level (.list items) =
      ascii '[' :: (laid gap true (items.map (printPretty (level + 1))) ++
        (close ++ [Bracket.list.closing])) := by
  cases items with
  | nil => exact ⟨[], [], blank_nil, blank_nil, rfl⟩
  | cons v items =>
    refine ⟨_, _, blank_newLine (level + 1), blank_newLine level, ?_⟩
    rw [printPretty, printPrettyItems_eq_laid, List.append_assoc]
    rfl

private theorem printPretty_table (level : Nat) (members : List (String × Value)) :
    ∃ gap close, Blank gap ∧ Blank close ∧ printPretty level (.table members) =
      ascii '\x7b' :: (laid gap true (members.map (printPrettyMember (level + 1))) ++
        (close ++ [Bracket.table.closing])) := by
  cases members with
  | nil => exact ⟨[], [], blank_nil, blank_nil, rfl⟩
  | cons m members =>
    refine ⟨_, _, blank_newLine (level + 1), blank_newLine level, ?_⟩
    rw [printPretty, printPrettyMembers_eq_laid, List.append_assoc]
    rfl

/-! ## Keys and values without parts -/

/-- The text of a key behind its opening quote. -/
def keyText (k : String) : Bytes := k.toList.flatMap printChar ++ [ascii '"']

/-- A printed string is a quote and the text of a key. -/
theorem printString_eq (k : String) : printString k = ascii '"' :: keyText k := rfl

/-- A printed key is spelled. -/
theorem spellsKey (k : String) : SpellsKey k (keyText k) := by
  have read := readString_printed k []
  obtain ⟨t, plain, he, reads⟩ := spelled_of_readString read
  rw [List.append_nil] at he
  rw [keyText, he]
  exact ⟨plain, reads⟩

private theorem blur_of_readValue_print {depth : Nat} {v w : Value} {left : Bytes}
    (h : readValue (print v).length depth (print v) = .ok (w, left)) :
    w.blur = v.blur ∧ v.nesting ≤ depth := by
  have answers := readsBack (print v).length depth v (Nat.le_refl _) [] endsNumber_nil
  rw [List.append_nil, h] at answers
  exact answers.1

/-- A printed value without doubles that is not nested too deeply is read. -/
theorem readValue_print {depth : Nat} {v : Value} (hf : v.DoubleFree)
    (hn : v.nesting ≤ depth) : readValue (print v).length depth (print v) = .ok (v, []) := by
  have answers := readsBack (print v).length depth v (Nat.le_refl _) [] endsNumber_nil
  rw [List.append_nil] at answers
  cases hr : readValue (print v).length depth (print v) with
  | error f =>
    rw [hr] at answers
    exact absurd ⟨hf, hn⟩ answers
  | ok r =>
    obtain ⟨w, left⟩ := r
    rw [hr] at answers
    obtain ⟨⟨hw, -⟩, rfl⟩ := answers
    rw [hf.eq_of_blur_eq hw]

/-- What a printed value says differs from the value in its doubles at most. -/
theorem blur_of_parse_print {v w : Value} (h : parse (print v) = .ok w) :
    w.blur = v.blur ∧ v.nesting ≤ depthLimit := by
  obtain ⟨left, hr, -⟩ := readWhole_eq_ok_iff.mp h
  exact blur_of_readValue_print hr

/-- Values without doubles have texts of their own. -/
theorem print_inj {v w : Value} (hv : v.DoubleFree) (hw : w.DoubleFree) (h : print v = print w) :
    v = w := by
  have back := readValue_print hv (Nat.le_max_left v.nesting w.nesting)
  rw [h, readValue_print hw (Nat.le_max_right _ _)] at back
  exact (Prod.mk.inj (Except.ok.inj back)).1.symm

/-- A printed value without doubles that is not nested too deeply is spelled. -/
theorem spells_print {depth : Nat} {v : Value} (hf : v.DoubleFree) (hn : v.nesting ≤ depth) :
    Spells depth v (print v) := by
  obtain ⟨pre, t, hp, ht, he⟩ := spells_of_readValue (readValue_print hf hn)
  obtain ⟨b, bs, hb, starts⟩ := print_eq_cons v
  have tight : pre = [] := hp.eq_nil (by rw [← he, hb, skipBlank_cons starts.1])
  rw [tight, List.nil_append, List.append_nil] at he
  rw [he]
  exact ht

private theorem wholeText_of_digits {whole : Bytes} (hd : AllDigits whole) (hs : whole ≠ [])
    (hz : ∀ after, whole = ascii '0' :: after → after = []) : WholeText whole := by
  cases whole with
  | nil => exact absurd rfl hs
  | cons b ds =>
    obtain ⟨hb, hds⟩ := List.forall_mem_cons.mp hd
    by_cases zero : b = ascii '0'
    · subst zero
      rw [hz ds rfl]
      exact .zero
    · exact .digits hb zero hds

private theorem scaleText_of_exponentText {e : Bytes} (h : ExponentText e) : ScaleText e := by
  cases h with
  | intro below hd hs =>
    refine .signed (by decide) ?_ hd hs
    cases below <;> simp

private theorem plain_double (x : Double) : Plain ScalarText (printNumber (.double x)) := by
  obtain ⟨whole, tail, he, hd, hs, ht, hz⟩ := decimal_text (Double.shortest x.rank) Double.layout
  have numeral : NumeralText (whole ++ tail) := by
    have first := wholeText_of_digits hd hs (hz (Double.shortest_cases x.rank))
    cases ht with
    | fraction hf hn =>
      have text := NumeralText.intro first (.some hf hn) .none
      rwa [List.append_nil] at text
    | exponent h => exact .intro first .none (scaleText_of_exponentText h)
    | both hf hn h => exact .intro first (.some hf hn) (scaleText_of_exponentText h)
  rw [printNumber_double, he]
  exact numeral.plain x.negative

/-! ## Values -/

private theorem plain_print_scalar {v : Value} (h : IsScalar v) : Plain ValueText (print v) := by
  have free {w : Value} (hf : w.DoubleFree) (hn : w.nesting = 0) : Plain ValueText (print w) :=
    (spells_print hf (Nat.le_of_eq hn)).plain
  cases v with
  | null => exact free (w := .null) trivial rfl
  | bool b => exact free (w := .bool b) trivial rfl
  | string s => exact free (w := .string s) trivial rfl
  | number n =>
    cases n with
    | integer i => exact free (w := .number (.integer i)) trivial rfl
    | double x =>
      have text := plain_double x
      exact ⟨.scalar text.kind, text.text⟩
  | list | table => cases h

/-- What is printed compactly is a value in UTF-8. -/
theorem plain_print (v : Value) : Plain ValueText (print v) := by
  induction v using Value.induct with
  | null | bool | number | string => exact plain_print_scalar trivial
  | list items ih =>
    have parts := Parts.laid blank_nil blank_nil ih .list true
    rw [print, printItems_eq_joined, joined_eq_laid]
    exact plain_list parts fun v t hv ↦ hv
  | table members ih =>
    have member (m : String × Value) (hm : m ∈ members) :
        MemberText SpellsKey (fun _ t ↦ Plain ValueText t) m (printMember m) :=
      .intro (spellsKey m.1) blank_nil blank_nil (ih m hm)
    have parts := Parts.laid blank_nil blank_nil member .table true
    rw [print, printMembers_eq_joined, joined_eq_laid]
    exact plain_table parts (fun k t hk ↦ hk.plain) fun v t hv ↦ hv

private theorem printPretty_of_isScalar (level : Nat) {v : Value} (h : IsScalar v) :
    printPretty level v = print v := by
  cases v with
  | null | bool | number | string => rfl
  | list | table => cases h

/-- What is printed on several lines is a value in UTF-8. -/
theorem plain_printPretty (level : Nat) (v : Value) : Plain ValueText (printPretty level v) := by
  have scalar (level : Nat) {v : Value} (h : IsScalar v) :
      Plain ValueText (printPretty level v) := by
    rw [printPretty_of_isScalar level h]
    exact plain_print v
  induction v using Value.induct generalizing level with
  | null | bool | number | string => exact scalar level trivial
  | list items ih =>
    obtain ⟨gap, close, hg, hc, he⟩ := printPretty_list level items
    rw [he]
    exact plain_list (Parts.laid hg hc (fun v hv ↦ ih v hv (level + 1)) .list true) fun v t hv ↦ hv
  | table members ih =>
    obtain ⟨gap, close, hg, hc, he⟩ := printPretty_table level members
    have space : Blank [ascii ' '] := by simp [Blank, isBlank]
    have member (m : String × Value) (hm : m ∈ members) :
        MemberText SpellsKey (fun _ t ↦ Plain ValueText t) m (printPrettyMember (level + 1) m) :=
      .intro (spellsKey m.1) blank_nil space (ih m hm (level + 1))
    rw [he]
    exact plain_table (Parts.laid hg hc member .table true) (fun k t hk ↦ hk.plain) fun v t hv ↦ hv

/-- A value without doubles that is not nested too deeply is spelled on several lines too. -/
theorem spells_printPretty {depth : Nat} (level : Nat) {v : Value} (hf : v.DoubleFree)
    (hn : v.nesting ≤ depth) : Spells depth v (printPretty level v) := by
  have scalar (level : Nat) {depth : Nat} {v : Value} (h : IsScalar v) (hf : v.DoubleFree)
      (hn : v.nesting ≤ depth) : Spells depth v (printPretty level v) := by
    rw [printPretty_of_isScalar level h]
    exact spells_print hf hn
  induction v using Value.induct generalizing level depth with
  | null | bool | number | string => exact scalar level trivial hf hn
  | list items ih =>
    cases depth with
    | zero => exact absurd hn (Nat.not_succ_le_zero _)
    | succ depth =>
      obtain ⟨gap, close, hg, hc, he⟩ := printPretty_list level items
      have shallow := Value.nestingItems_le_iff.mp (Nat.le_of_succ_le_succ hn)
      have item (v : Value) (hv : v ∈ items) : Spells depth v (printPretty (level + 1) v) :=
        ih v hv (level + 1) (Value.doubleFreeItems_iff.mp hf v hv) (shallow v hv)
      rw [he]
      exact .of_list (Parts.laid hg hc item .list true)
  | table members ih =>
    cases depth with
    | zero => exact absurd hn (Nat.not_succ_le_zero _)
    | succ depth =>
      obtain ⟨gap, close, hg, hc, he⟩ := printPretty_table level members
      have space : Blank [ascii ' '] := by simp [Blank, isBlank]
      have shallow := Value.nestingMembers_le_iff.mp (Nat.le_of_succ_le_succ hn)
      have member (m : String × Value) (hm : m ∈ members) :
          MemberText SpellsKey (Spells depth) m (printPrettyMember (level + 1) m) :=
        .intro (spellsKey m.1) blank_nil space
          (ih m hm (level + 1) (Value.doubleFreeMembers_iff.mp hf m hm) (shallow m hm))
      rw [he]
      exact .of_table (Parts.laid hg hc member .table true)

end SchemaDoc.Json
