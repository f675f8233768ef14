import Mathlib.Data.String.Basic
import Mathlib.Tactic
import Destack.Descriptor

/-!
# The grammar of descriptors

A field descriptor is written down as a tree: a primitive type, a class with its name, or an array of something. A
method descriptor is a list of such trees and a result. Texts of trees can be put one behind the other and still be told
apart (`TypeTree.append_inj`), so the reader takes exactly the text of one tree off the front
(`takeType?_eq_some_iff`), and a descriptor is accepted if it is the text of a tree, of which there is only one
(`descriptors_follow_grammar`).

The semicolon that ends a class name is one byte in UTF-8, and no other character has this byte in it. So it makes no
difference that names are read as characters here.
-/

namespace Destack.Descriptor

/-! ## Texts -/

/-- A text is a field type, and stands for a value type. -/
inductive FieldText : List Char → ValueType → Prop where
  | boolean : FieldText ['Z'] .boolean
  | byte : FieldText ['B'] .byte
  | char : FieldText ['C'] .char
  | short : FieldText ['S'] .short
  | int : FieldText ['I'] .int
  | long : FieldText ['J'] .long
  | float : FieldText ['F'] .float
  | double : FieldText ['D'] .double
  | object {name : List Char} : name ≠ [] → ';' ∉ name → FieldText ('L' :: (name ++ [';'])) .reference
  | array {text : List Char} {ty : ValueType} : FieldText text ty → FieldText ('[' :: text) .reference

/-- A text is a method descriptor with parts for the parameters and the result, and stands for a type. -/
structure MethodText (text : List Char) (params : List (List Char)) (result : List Char) (ty : MethodType) : Prop where
  text_eq : text = '(' :: (params.flatten ++ ')' :: result)
  params : List.Forall₂ FieldText params ty.params
  result : result = ['V'] ∧ ty.result = .void ∨ FieldText result ty.result

/-! ## Trees -/

inductive Primitive where
  | boolean | byte | char | short | int | long | float | double
deriving DecidableEq, Repr

namespace Primitive

def letter : Primitive → Char
  | boolean => 'Z'
  | byte => 'B'
  | char => 'C'
  | short => 'S'
  | int => 'I'
  | long => 'J'
  | float => 'F'
  | double => 'D'

def valueType : Primitive → ValueType
  | boolean => .boolean
  | byte => .byte
  | char => .char
  | short => .short
  | int => .int
  | long => .long
  | float => .float
  | double => .double

theorem letter_injective : ∀ {p q : Primitive}, p.letter = q.letter → p = q := by
  intro p q
  cases p <;> cases q <;> decide

/-- The letters are those of the table, and none of them starts anything else. -/
theorem primitive?_eq_some_iff {c : Char} {ty : ValueType} :
    primitive? c = some ty ↔ ∃ p : Primitive, p.letter = c ∧ p.valueType = ty := by
  constructor
  · intro h
    unfold primitive? at h
    split at h <;> cases h
    exacts [⟨boolean, rfl, rfl⟩, ⟨byte, rfl, rfl⟩, ⟨char, rfl, rfl⟩, ⟨short, rfl, rfl⟩, ⟨int, rfl, rfl⟩,
      ⟨long, rfl, rfl⟩, ⟨float, rfl, rfl⟩, ⟨double, rfl, rfl⟩]
  · rintro ⟨p, rfl, rfl⟩
    cases p <;> rfl

theorem letter_ne (p : Primitive) : p.letter ≠ 'L' ∧ p.letter ≠ '[' ∧ p.letter ≠ ')' ∧ p.letter ≠ 'V' := by
  cases p <;> decide

theorem fieldText (p : Primitive) : FieldText [p.letter] p.valueType := by
  cases p <;> constructor

end Primitive

/-- The name of a class. -/
@[ext]
structure ClassName where
  chars : List Char
  ne_nil : chars ≠ []
  not_mem : ';' ∉ chars
deriving DecidableEq

inductive TypeTree where
  | primitive (p : Primitive)
  | object (name : ClassName)
  | array (element : TypeTree)
deriving DecidableEq

/-- Parameters and result of a method; without a result it is void. -/
structure MethodTree where
  params : List TypeTree
  result : Option TypeTree
deriving DecidableEq

namespace TypeTree

def render : TypeTree → List Char
  | primitive p => [p.letter]
  | object name => 'L' :: (name.chars ++ [';'])
  | array element => '[' :: element.render

def valueType : TypeTree → ValueType
  | primitive p => p.valueType
  | object _ | array _ => .reference

end TypeTree

namespace MethodTree

/-- The text of a result. -/
def renderResult (result : Option TypeTree) : List Char :=
  result.elim ['V'] TypeTree.render

def render (tree : MethodTree) : List Char :=
  '(' :: (tree.params.flatMap TypeTree.render ++ ')' :: renderResult tree.result)

def type (tree : MethodTree) : MethodType where
  params := tree.params.map TypeTree.valueType
  result := tree.result.elim .void TypeTree.valueType

end MethodTree

/-! ## Trees and texts -/

/-- Field types are the texts of trees. -/
theorem fieldText_iff {text : List Char} {ty : ValueType} :
    FieldText text ty ↔ ∃ t : TypeTree, t.render = text ∧ t.valueType = ty := by
  constructor
  · intro h
    induction h with
    | boolean => exact ⟨.primitive .boolean, rfl, rfl⟩
    | byte => exact ⟨.primitive .byte, rfl, rfl⟩
    | char => exact ⟨.primitive .char, rfl, rfl⟩
    | short => exact ⟨.primitive .short, rfl, rfl⟩
    | int => exact ⟨.primitive .int, rfl, rfl⟩
    | long => exact ⟨.primitive .long, rfl, rfl⟩
    | float => exact ⟨.primitive .float, rfl, rfl⟩
    | double => exact ⟨.primitive .double, rfl, rfl⟩
    | @object name hne hnot => exact ⟨.object ⟨name, hne, hnot⟩, rfl, rfl⟩
    | array _ ih =>
      obtain ⟨t, rfl, -⟩ := ih
      exact ⟨.array t, rfl, rfl⟩
  · rintro ⟨t, rfl, rfl⟩
    induction t with
    | primitive p => exact p.fieldText
    | object name => exact .object name.ne_nil name.not_mem
    | array element ih => exact .array ih

theorem forall₂_fieldText_iff {params : List (List Char)} {tys : List ValueType} :
    List.Forall₂ FieldText params tys ↔
      ∃ ts : List TypeTree, ts.map TypeTree.render = params ∧ ts.map TypeTree.valueType = tys := by
  constructor
  · intro h
    induction h with
    | nil => exact ⟨[], rfl, rfl⟩
    | cons hhead _ ih =>
      obtain ⟨t, rfl, rfl⟩ := fieldText_iff.1 hhead
      obtain ⟨ts, rfl, rfl⟩ := ih
      exact ⟨t :: ts, rfl, rfl⟩
  · rintro ⟨ts, rfl, rfl⟩
    rw [List.forall₂_map_left_iff, List.forall₂_map_right_iff, List.forall₂_same]
    exact fun t _ => fieldText_iff.2 ⟨t, rfl, rfl⟩

theorem result_iff {result : List Char} {ty : ValueType} :
    (result = ['V'] ∧ ty = .void ∨ FieldText result ty) ↔
      ∃ t : Option TypeTree, MethodTree.renderResult t = result ∧ t.elim .void TypeTree.valueType = ty := by
  constructor
  · rintro (⟨rfl, rfl⟩ | h)
    · exact ⟨none, rfl, rfl⟩
    · obtain ⟨t, rfl, rfl⟩ := fieldText_iff.1 h
      exact ⟨some t, rfl, rfl⟩
  · rintro ⟨_ | t, rfl, rfl⟩
    · exact Or.inl ⟨rfl, rfl⟩
    · exact Or.inr (fieldText_iff.2 ⟨t, rfl, rfl⟩)

/-- Method descriptors are the texts of trees, and their parts are the texts of the parts of the tree. -/
theorem methodText_iff {text : List Char} {params : List (List Char)} {result : List Char} {ty : MethodType} :
    MethodText text params result ty ↔ ∃ t : MethodTree, t.render = text ∧ t.type = ty ∧
      t.params.map TypeTree.render = params ∧ MethodTree.renderResult t.result = result := by
  constructor
  · rintro ⟨rfl, hparams, hresult⟩
    obtain ⟨ts, rfl, htypes⟩ := forall₂_fieldText_iff.1 hparams
    obtain ⟨t, rfl, htype⟩ := result_iff.1 hresult
    refine ⟨⟨ts, t⟩, ?_, ?_, rfl, rfl⟩
    · rw [MethodTree.render, List.flatMap_def]
    · rw [MethodTree.type, htypes, htype]
  · rintro ⟨t, rfl, rfl, rfl, rfl⟩
    refine ⟨?_, forall₂_fieldText_iff.2 ⟨t.params, rfl, rfl⟩, result_iff.2 ⟨t.result, rfl, rfl⟩⟩
    rw [MethodTree.render, List.flatMap_def]

/-! ## Telling texts apart -/

theorem takeWhile_name (name : ClassName) (rest : List Char) :
    (name.chars ++ ';' :: rest).takeWhile (· ≠ ';') = name.chars := by
  rw [List.takeWhile_append_of_pos, List.takeWhile_cons_of_neg, List.append_nil]
  · simp
  · intro c hc
    exact decide_eq_true fun e => name.not_mem (e ▸ hc)

theorem dropWhile_name (name : ClassName) (rest : List Char) :
    (name.chars ++ ';' :: rest).dropWhile (· ≠ ';') = ';' :: rest := by
  rw [List.dropWhile_append_of_pos, List.dropWhile_cons_of_neg]
  · simp
  · intro c hc
    exact decide_eq_true fun e => name.not_mem (e ▸ hc)

namespace TypeTree

/-- What starts with a tree starts with no other one, and the rest is the same. -/
theorem append_inj {t t' : TypeTree} {rest rest' : List Char} (h : t.render ++ rest = t'.render ++ rest') :
    t = t' ∧ rest = rest' := by
  induction t generalizing t' with
  | primitive p =>
    cases t' with
    | primitive p' =>
      obtain ⟨hletter, hrest⟩ := List.cons.inj h
      exact ⟨congrArg primitive (Primitive.letter_injective hletter), hrest⟩
    | object | array => exact absurd (List.cons.inj h).1 (by simp [p.letter_ne])
  | object name =>
    cases t' with
    | primitive p' => exact absurd (List.cons.inj h).1.symm (by simp [p'.letter_ne])
    | object name' =>
      -- Both names end at the first semicolon.
      have htail : name.chars ++ ';' :: rest = name'.chars ++ ';' :: rest' := by simpa [render] using h
      have hchars := congrArg (List.takeWhile (· ≠ ';')) htail
      have hrest := congrArg (List.dropWhile (· ≠ ';')) htail
      rw [takeWhile_name, takeWhile_name] at hchars
      rw [dropWhile_name, dropWhile_name] at hrest
      exact ⟨congrArg object (ClassName.ext hchars), (List.cons.inj hrest).2⟩
    | array => exact absurd (List.cons.inj h).1 (by decide)
  | array element ih =>
    cases t' with
    | primitive p' => exact absurd (List.cons.inj h).1.symm (by simp [p'.letter_ne])
    | object => exact absurd (List.cons.inj h).1 (by decide)
    | array element' =>
      obtain ⟨rfl, hrest⟩ := ih (List.cons.inj h).2
      exact ⟨rfl, hrest⟩

theorem render_injective {t t' : TypeTree} (h : t.render = t'.render) : t = t' := by
  have happend : t.render ++ [] = t'.render ++ [] := by rw [h]
  exact (append_inj happend).1

/-- Neither the end of the parameters nor a void result starts a tree. -/
theorem exists_render_eq_cons (t : TypeTree) : ∃ c cs, t.render = c :: cs ∧ c ≠ ')' ∧ c ≠ 'V' := by
  cases t with
  | primitive p => exact ⟨p.letter, [], rfl, by simp [p.letter_ne], by simp [p.letter_ne]⟩
  | object name => exact ⟨'L', _, rfl, by decide, by decide⟩
  | array element => exact ⟨'[', _, rfl, by decide, by decide⟩

/-- The texts of some trees up to a closing parenthesis are those of no others. -/
theorem flatMap_append_inj {ts ts' : List TypeTree} {rest rest' : List Char}
    (h : ts.flatMap render ++ ')' :: rest = ts'.flatMap render ++ ')' :: rest') : ts = ts' ∧ rest = rest' := by
  induction ts generalizing ts' with
  | nil =>
    cases ts' with
    | nil => exact ⟨rfl, (List.cons.inj h).2⟩
    | cons t' ts' =>
      obtain ⟨c, cs, hrender, hne, -⟩ := t'.exists_render_eq_cons
      simp only [List.flatMap_nil, List.flatMap_cons, hrender, List.nil_append, List.cons_append] at h
      exact absurd (List.cons.inj h).1.symm hne
  | cons t ts ih =>
    cases ts' with
    | nil =>
      obtain ⟨c, cs, hrender, hne, -⟩ := t.exists_render_eq_cons
      simp only [List.flatMap_nil, List.flatMap_cons, hrender, List.nil_append, List.cons_append] at h
      exact absurd (List.cons.inj h).1 hne
    | cons t' ts' =>
      rw [List.flatMap_cons, List.flatMap_cons, List.append_assoc, List.append_assoc] at h
      obtain ⟨rfl, htail⟩ := append_inj h
      obtain ⟨rfl, hrest⟩ := ih htail
      exact ⟨rfl, hrest⟩

end TypeTree

namespace MethodTree

theorem renderResult_injective {t t' : Option TypeTree} (h : renderResult t = renderResult t') : t = t' := by
  have hvoid : ∀ t : TypeTree, t.render ≠ ['V'] := by
    intro t hV
    obtain ⟨c, cs, hrender, -, hne⟩ := t.exists_render_eq_cons
    exact hne (List.cons.inj (hrender.symm.trans hV)).1
  cases t with
  | none =>
    cases t' with
    | none => rfl
    | some t' => exact absurd h.symm (hvoid t')
  | some t =>
    cases t' with
    | none => exact absurd h (hvoid t)
    | some t' => exact congrArg some (TypeTree.render_injective h)

theorem render_injective {t t' : MethodTree} (h : t.render = t'.render) : t = t' := by
  obtain ⟨params, result⟩ := t
  obtain ⟨params', result'⟩ := t'
  obtain ⟨hparams, hresult⟩ := TypeTree.flatMap_append_inj (List.cons.inj h).2
  exact congrArg₂ mk hparams (renderResult_injective hresult)

end MethodTree

/-! ## Reading -/

theorem afterClassName?_eq_some_iff {cs rest : List Char} :
    afterClassName? cs = some rest ↔ ∃ name : ClassName, cs = name.chars ++ ';' :: rest := by
  constructor
  · intro h
    unfold afterClassName? at h
    split at h
    · next c name d after htake hdrop =>
      obtain rfl := Option.some.inj h
      have hd : d = ';' := by
        have hhead := List.head?_dropWhile_not (· ≠ ';') cs
        rw [hdrop] at hhead
        simpa using hhead
      have hnot : ';' ∉ c :: name := by
        intro hmem
        rw [← htake] at hmem
        simpa using List.all_eq_true.1 List.all_takeWhile _ hmem
      refine ⟨⟨c :: name, List.cons_ne_nil _ _, hnot⟩, ?_⟩
      rw [← List.takeWhile_append_dropWhile (p := (· ≠ ';')) (l := cs), htake, hdrop, hd]
    · cases h
  · rintro ⟨name, rfl⟩
    obtain ⟨c, cs, hname⟩ := List.exists_cons_of_ne_nil name.ne_nil
    rw [afterClassName?, takeWhile_name, dropWhile_name, hname]

/-- Reading takes the text of one tree off the front. -/
theorem takeType?_eq_some_iff {cs rest : List Char} {ty : ValueType} :
    takeType? cs = some (ty, rest) ↔ ∃ t : TypeTree, cs = t.render ++ rest ∧ t.valueType = ty := by
  constructor
  · intro h
    induction cs generalizing ty rest with
    | nil => cases h
    | cons c cs ih =>
      rw [takeType?] at h
      split at h
      · next hc =>
        obtain ⟨⟨ty', rest'⟩, htail, heq⟩ := Option.map_eq_some_iff.1 h
        obtain ⟨rfl, rfl⟩ := Prod.mk.inj heq
        obtain ⟨t, rfl, -⟩ := ih htail
        exact ⟨.array t, by rw [hc]; rfl, rfl⟩
      · split at h
        · next hc =>
          obtain ⟨rest', htail, heq⟩ := Option.map_eq_some_iff.1 h
          obtain ⟨rfl, rfl⟩ := Prod.mk.inj heq
          obtain ⟨name, rfl⟩ := afterClassName?_eq_some_iff.1 htail
          exact ⟨.object name, by simp [hc, TypeTree.render], rfl⟩
        · obtain ⟨ty', htail, heq⟩ := Option.map_eq_some_iff.1 h
          obtain ⟨rfl, rfl⟩ := Prod.mk.inj heq
          obtain ⟨p, rfl, rfl⟩ := Primitive.primitive?_eq_some_iff.1 htail
          exact ⟨.primitive p, rfl, rfl⟩
  · rintro ⟨t, rfl, rfl⟩
    induction t with
    | primitive p =>
      have hp := Primitive.primitive?_eq_some_iff.2 ⟨p, rfl, rfl⟩
      simp [TypeTree.render, takeType?, p.letter_ne, hp, TypeTree.valueType]
    | object name =>
      have hname : afterClassName? (name.chars ++ ';' :: rest) = some rest :=
        afterClassName?_eq_some_iff.2 ⟨name, rfl⟩
      simp [TypeTree.render, takeType?, hname, TypeTree.valueType]
    | array element ih => simp [TypeTree.render, takeType?, ih, TypeTree.valueType]

/-- Parameters are read up to the closing parenthesis that ends their list, however many their names contain. -/
theorem takeParams_eq_ok_iff {cs rest : List Char} {tys : List ValueType} :
    takeParams cs = .ok (tys, rest) ↔
      ∃ ts : List TypeTree, cs = ts.flatMap TypeTree.render ++ ')' :: rest ∧ ts.map TypeTree.valueType = tys := by
  constructor
  · intro h
    fun_induction takeParams cs generalizing tys rest with
    | case1 => cases h
    | case2 after =>
      obtain ⟨rfl, rfl⟩ := Prod.mk.inj (Except.ok.inj h)
      exact ⟨[], rfl, rfl⟩
    | case3 => cases h
    | case4 => cases h
    | case5 c cs hc ty after htake hlt tys' last hparams ih =>
      obtain ⟨rfl, rfl⟩ := Prod.mk.inj (Except.ok.inj h)
      obtain ⟨t, ht, rfl⟩ := takeType?_eq_some_iff.1 htake
      obtain ⟨ts, rfl, rfl⟩ := ih hparams
      exact ⟨t :: ts, by rw [ht, List.flatMap_cons, List.append_assoc], rfl⟩
  · rintro ⟨ts, rfl, rfl⟩
    induction ts with
    | nil => simp [takeParams]
    | cons t ts ih =>
      -- A parenthesis ends the list only where a type could start, and no type starts with one.
      obtain ⟨c, cs, hrender, hne, -⟩ := t.exists_render_eq_cons
      have htake : takeType? (c :: (cs ++ (ts.flatMap TypeTree.render ++ ')' :: rest))) =
          some (t.valueType, ts.flatMap TypeTree.render ++ ')' :: rest) :=
        takeType?_eq_some_iff.2 ⟨t, by rw [hrender, List.cons_append], rfl⟩
      rw [List.flatMap_cons, List.append_assoc, hrender, List.cons_append, takeParams, if_neg hne]
      split
      · next hnone => cases hnone.symm.trans htake
      · next hsome =>
        obtain ⟨rfl, rfl⟩ := Prod.mk.inj (Option.some.inj (hsome.symm.trans htake))
        rw [ih]
        rfl

theorem field?_eq_some_iff {cs : List Char} {ty : ValueType} :
    field? cs = some ty ↔ ∃ t : TypeTree, t.render = cs ∧ t.valueType = ty := by
  have hwhole : field? cs = some ty ↔ takeType? cs = some (ty, []) := by
    unfold field?
    split
    · next h => simp [h]
    · next h => exact ⟨nofun, fun htake => (h _ htake).elim⟩
  simp only [hwhole, takeType?_eq_some_iff, List.append_nil, eq_comm (a := cs)]

theorem result?_eq_some_iff {cs : List Char} {ty : ValueType} :
    result? cs = some ty ↔
      ∃ t : Option TypeTree, MethodTree.renderResult t = cs ∧ t.elim .void TypeTree.valueType = ty := by
  have hfield : result? cs = if cs = ['V'] then some .void else field? cs := rfl
  rw [hfield, ← result_iff, fieldText_iff, ← field?_eq_some_iff]
  split
  · next hV =>
    subst hV
    have hnone : field? ['V'] = none := rfl
    simp [hnone, eq_comm]
  · next hV => simp [hV]

/-- A method descriptor is read if it is the text of a tree. -/
theorem method_eq_ok_iff {cs : List Char} {ty : MethodType} :
    method cs = .ok ty ↔ ∃ t : MethodTree, t.render = cs ∧ t.type = ty := by
  constructor
  · intro h
    unfold method at h
    split at h
    · next inner =>
      split at h
      · cases h
      · next tys rest hparams =>
        split at h
        · next result hresult =>
          obtain rfl := Except.ok.inj h
          obtain ⟨ts, rfl, rfl⟩ := takeParams_eq_ok_iff.1 hparams
          obtain ⟨t, rfl, rfl⟩ := result?_eq_some_iff.1 hresult
          exact ⟨⟨ts, t⟩, rfl, rfl⟩
        · cases h
    · cases h
  · rintro ⟨t, rfl, rfl⟩
    have hparams : takeParams (t.params.flatMap TypeTree.render ++ ')' :: MethodTree.renderResult t.result) =
        .ok (t.params.map TypeTree.valueType, MethodTree.renderResult t.result) :=
      takeParams_eq_ok_iff.2 ⟨t.params, rfl, rfl⟩
    have hresult := result?_eq_some_iff.2 ⟨t.result, rfl, rfl⟩
    rw [MethodTree.render, method, hparams]
    dsimp only
    rw [hresult]
    rfl

/-! ## Descriptors -/

theorem ofDescriptor_method_eq_ok_iff {text : String} {ty : MethodType} :
    MethodType.ofDescriptor text = .ok ty ↔ ∃ t : MethodTree, t.render = text.toList ∧ t.type = ty := by
  rw [← method_eq_ok_iff, MethodType.ofDescriptor]
  cases method text.toList <;> simp

theorem ofDescriptor_field_eq_ok_iff {text : String} {ty : ValueType} :
    ValueType.ofDescriptor text = .ok ty ↔ ∃ t : TypeTree, t.render = text.toList ∧ t.valueType = ty := by
  rw [← field?_eq_some_iff, ValueType.ofDescriptor]
  cases field? text.toList <;> simp

/-- How a text is read as a method descriptor. -/
structure ReadAsMethod (text : String) : Prop where
  /-- It is accepted if the grammar takes it apart, and what is read is what the parts stand for. -/
  grammar : ∀ ty, MethodType.ofDescriptor text = .ok ty ↔ ∃ params result, MethodText text.toList params result ty
  unambiguous : ∀ {params params' : List (List Char)} {result result' : List Char} {ty ty' : MethodType},
    MethodText text.toList params result ty → MethodText text.toList params' result' ty' →
      params = params' ∧ result = result' ∧ ty = ty'
  tree : ∀ t : MethodTree, String.ofList t.render = text → MethodType.ofDescriptor text = .ok t.type
  one_tree : ∀ ty, MethodType.ofDescriptor text = .ok ty → ∃! t : MethodTree, String.ofList t.render = text
  refused : (∀ params result ty, ¬ MethodText text.toList params result ty) →
    ∃ fault, MethodType.ofDescriptor text = .error (.invalidDescriptor text fault)

/-- How a text is read as a field descriptor. -/
structure ReadAsField (text : String) : Prop where
  grammar : ∀ ty, ValueType.ofDescriptor text = .ok ty ↔ FieldText text.toList ty
  tree : ∀ t : TypeTree, String.ofList t.render = text → ValueType.ofDescriptor text = .ok t.valueType
  one_tree : ∀ ty, ValueType.ofDescriptor text = .ok ty → ∃! t : TypeTree, String.ofList t.render = text
  refused : (∀ ty, ¬ FieldText text.toList ty) →
    ValueType.ofDescriptor text = .error (.invalidDescriptor text .badField)

theorem readAsMethod (text : String) : ReadAsMethod text := by
  have hgrammar : ∀ ty, MethodType.ofDescriptor text = .ok ty ↔
      ∃ params result, MethodText text.toList params result ty := by
    intro ty
    simp only [ofDescriptor_method_eq_ok_iff, methodText_iff]
    constructor
    · rintro ⟨t, hrender, htype⟩
      exact ⟨_, _, t, hrender, htype, rfl, rfl⟩
    · rintro ⟨-, -, t, hrender, htype, -, -⟩
      exact ⟨t, hrender, htype⟩
  refine ⟨hgrammar, fun h h' => ?_, fun t ht => ?_, fun ty hok => ?_, fun hnot => ?_⟩
  · obtain ⟨t, hrender, rfl, rfl, rfl⟩ := methodText_iff.1 h
    obtain ⟨t', hrender', rfl, rfl, rfl⟩ := methodText_iff.1 h'
    obtain rfl := MethodTree.render_injective (hrender.trans hrender'.symm)
    exact ⟨rfl, rfl, rfl⟩
  · exact ofDescriptor_method_eq_ok_iff.2 ⟨t, String.ofList_eq.1 ht, rfl⟩
  · obtain ⟨t, hrender, -⟩ := ofDescriptor_method_eq_ok_iff.1 hok
    refine ⟨t, String.ofList_eq.2 hrender, fun t' ht' => ?_⟩
    exact MethodTree.render_injective ((String.ofList_eq.1 ht').trans hrender.symm)
  · cases hread : method text.toList with
    | ok ty =>
      have hok : MethodType.ofDescriptor text = .ok ty := by rw [MethodType.ofDescriptor, hread]
      obtain ⟨params, result, h⟩ := (hgrammar ty).1 hok
      exact absurd h (hnot params result ty)
    | error fault => exact ⟨fault, by rw [MethodType.ofDescriptor, hread]⟩

theorem readAsField (text : String) : ReadAsField text := by
  have hgrammar : ∀ ty, ValueType.ofDescriptor text = .ok ty ↔ FieldText text.toList ty :=
    fun ty => ofDescriptor_field_eq_ok_iff.trans fieldText_iff.symm
  refine ⟨hgrammar, fun t ht => ?_, fun ty hok => ?_, fun hnot => ?_⟩
  · exact ofDescriptor_field_eq_ok_iff.2 ⟨t, String.ofList_eq.1 ht, rfl⟩
  · obtain ⟨t, hrender, -⟩ := ofDescriptor_field_eq_ok_iff.1 hok
    refine ⟨t, String.ofList_eq.2 hrender, fun t' ht' => ?_⟩
    exact TypeTree.render_injective ((String.ofList_eq.1 ht').trans hrender.symm)
  · cases hread : field? text.toList with
    | some ty =>
      have hok : ValueType.ofDescriptor text = .ok ty := by rw [ValueType.ofDescriptor, hread]
      exact absurd ((hgrammar ty).1 hok) (hnot ty)
    | none => rw [ValueType.ofDescriptor, hread]

/-- Descriptors are read by exactly their grammar: a text is accepted if it can be taken apart as the grammar
says, which is possible in one way at most, and it is then the text of one tree. -/
theorem descriptors_follow_grammar (text : String) : ReadAsMethod text ∧ ReadAsField text :=
  ⟨readAsMethod text, readAsField text⟩

/-- A class whose name looks like the end of the parameters, and an array of arrays. -/
def crowdedParams : MethodTree where
  params := [.object ⟨[')', 'V', '(', '['], by decide, by decide⟩, .array (.array (.primitive .long))]
  result := none

theorem crowdedParams_follow_grammar :
    MethodType.ofDescriptor "(L)V([;[[J)V" = .ok ⟨[.reference, .reference], .void⟩ ∧
      (∃! t : MethodTree, String.ofList t.render = "(L)V([;[[J)V") ∧
      ValueType.ofDescriptor "(L)V([;[[J)V" = .error (.invalidDescriptor "(L)V([;[[J)V" .badField) := by
  obtain ⟨hmethod, hfield⟩ := descriptors_follow_grammar "(L)V([;[[J)V"
  have hok := hmethod.tree crowdedParams rfl
  refine ⟨hok, hmethod.one_tree _ hok, hfield.refused fun ty h => ?_⟩
  cases h

end Destack.Descriptor
