import Mathlib.Data.List.TakeWhile
import Destack.CommandLine.Constant
import Destack.Proofs.Numerals

/-!
# Constants are read as they are written

An entry of the constant pool is written as its index, its kind and its value. Two texts that are joined by a mark are
split again at the first mark if there is none in the text before it, and at the last one if there is none in the text
behind it (`splitFirst?_eq_some_iff`, `splitLast?_eq_some_iff`). So a text is read as a member exactly if it is the text
of the member and the member can be told from it (`readMember_eq_ok_iff`). Whatever else there is in a text, what is
written is read back for the entries that can be written, and for no others (`readConstant_write_iff`).
-/

namespace Destack

/-! ## Writing -/

/-- A member can be told from its text: there is no colon ahead of the one in front of the descriptor, and no point
behind the one in front of the name. -/
structure Member.Writable (m : Member) : Prop where
  owner : ':' ∉ m.owner.toList
  name : ':' ∉ m.name.toList
  point : '.' ∉ m.name.toList

instance (m : Member) : Decidable m.Writable :=
  decidable_of_iff (':' ∉ m.owner.toList ∧ ':' ∉ m.name.toList ∧ '.' ∉ m.name.toList)
    ⟨fun h => ⟨h.1, h.2.1, h.2.2⟩, fun h => ⟨h.owner, h.name, h.point⟩⟩

namespace Constant

def kind : Constant → String
  | className _ => "class"
  | field _ => "field"
  | method _ => "method"
  | string _ => "string"
  | int _ => "int"

def valueText : Constant → String
  | className name => name
  | field member => member.render
  | method member => member.render
  | string text => text
  | int n => toString n

/-- An entry as it is given on the command line. -/
def write (index : Nat) (entry : Constant) : String :=
  s!"{index}={entry.kind}:{entry.valueText}"

/-- Integers have 32 bits, and members can be told from their texts. Names of classes and strings may be anything. -/
def Writable : Constant → Prop
  | className _ => True
  | field member => member.Writable
  | method member => member.Writable
  | string _ => True
  | int n => -2 ^ 31 ≤ n ∧ n < 2 ^ 31

instance : DecidablePred Writable
  | className _ | string _ => inferInstanceAs (Decidable True)
  | field member | method member => inferInstanceAs (Decidable member.Writable)
  | int n => inferInstanceAs (Decidable (-2 ^ 31 ≤ n ∧ n < 2 ^ 31))

end Constant

namespace CommandLine

/-! ## Splitting -/

/-- A text is split at the first occurrence of a mark: the part before it has none. -/
theorem splitFirst?_eq_some_iff {c : Char} {cs front back : List Char} :
    splitFirst? c cs = some (front, back) ↔ cs = front ++ c :: back ∧ c ∉ front := by
  constructor
  · intro h
    unfold splitFirst? at h
    split at h
    · next d rest hdrop =>
      obtain ⟨rfl, rfl⟩ := Prod.mk.inj (Option.some.inj h)
      have hhead := List.head?_dropWhile_not (· ≠ c) cs
      rw [hdrop] at hhead
      obtain rfl : d = c := by simpa using hhead
      refine ⟨?_, fun hmem => ?_⟩
      · rw [← hdrop, List.takeWhile_append_dropWhile]
      · simpa using List.mem_takeWhile_imp hmem
    · cases h
  · rintro ⟨rfl, hfront⟩
    have hne : ∀ d ∈ front, decide (d ≠ c) = true := by
      intro d hd
      exact decide_eq_true fun heq => hfront (heq ▸ hd)
    rw [splitFirst?, List.dropWhile_append_of_pos hne, List.takeWhile_append_of_pos hne]
    simp

/-- A text is split at the last occurrence of a mark: the part behind it has none. -/
theorem splitLast?_eq_some_iff {c : Char} {cs front back : List Char} :
    splitLast? c cs = some (front, back) ↔ cs = front ++ c :: back ∧ c ∉ back := by
  have hmirror : splitLast? c cs = some (front, back) ↔
      splitFirst? c cs.reverse = some (back.reverse, front.reverse) := by
    rw [splitLast?, Option.map_eq_some_iff]
    constructor
    · rintro ⟨⟨back', front'⟩, hsplit, heq⟩
      obtain ⟨rfl, rfl⟩ := Prod.mk.inj heq
      simpa using hsplit
    · intro hsplit
      exact ⟨_, hsplit, by simp⟩
  rw [hmirror, splitFirst?_eq_some_iff, List.reverse_eq_iff]
  simp

/-! ## Members -/

theorem toList_render (m : Member) :
    m.render.toList = (m.owner.toList ++ '.' :: m.name.toList) ++ ':' :: m.descriptor.toList := by
  show (m.owner ++ "." ++ m.name ++ ":" ++ m.descriptor).toList = _
  simp

/-- A text is read as a member if it is the text of the member and the member can be told from it. -/
theorem readMember_eq_ok_iff {cs : List Char} {m : Member} :
    readMember cs = .ok m ↔ cs = m.render.toList ∧ m.Writable := by
  rw [toList_render]
  constructor
  · intro h
    unfold readMember at h
    split at h
    · cases h
    · next path descriptor hpath =>
      split at h
      · cases h
      · next owner name hname =>
        obtain rfl := Except.ok.inj h
        obtain ⟨rfl, hcolon⟩ := splitFirst?_eq_some_iff.1 hpath
        obtain ⟨rfl, hpoint⟩ := splitLast?_eq_some_iff.1 hname
        simp only [List.mem_append, List.mem_cons, not_or] at hcolon
        obtain ⟨howner, -, hname⟩ := hcolon
        exact ⟨by simp, by simpa using howner, by simpa using hname, by simpa using hpoint⟩
  · rintro ⟨rfl, howner, hname, hpoint⟩
    have hcolon : ':' ∉ m.owner.toList ++ '.' :: m.name.toList := by simp [howner, hname]
    rw [readMember, splitFirst?_eq_some_iff.2 ⟨rfl, hcolon⟩]
    dsimp only
    rw [splitLast?_eq_some_iff.2 ⟨rfl, hpoint⟩]
    simp

/-! ## Entries -/

theorem map_readMember_eq_ok_iff {f : Member → Constant} (hf : f.Injective) {m : Member} :
    f <$> readMember m.render.toList = .ok (f m) ↔ m.Writable := by
  have hread : readMember m.render.toList = .ok m ↔ m.Writable := by simp [readMember_eq_ok_iff]
  rw [← hread]
  cases readMember m.render.toList with
  | error e => simp
  | ok m' => simp [hf.eq_iff]

/-- The value of an entry is read back if the entry can be written. -/
theorem readValue_valueText_iff {entry : Constant} :
    readValue entry.kind entry.valueText.toList = .ok entry ↔ entry.Writable := by
  cases entry with
  | className name => simp [Constant.kind, Constant.valueText, Constant.Writable, readValue]
  | string text => simp [Constant.kind, Constant.valueText, Constant.Writable, readValue]
  | field m => exact map_readMember_eq_ok_iff fun _ _ => Constant.field.inj
  | method m => exact map_readMember_eq_ok_iff fun _ _ => Constant.method.inj
  | int n =>
    have hread : Text.readNumeral 10 .signed32 n.repr.toList = .ok n ↔ Constant.Writable (.int n) := by
      rw [Text.readNumeral_repr_eq_ok_iff (by decide) (by decide)]
      simp only [Constant.Writable, Text.IntRange.signed32, true_and]
      omega
    rw [← hread]
    show readValue "int" n.repr.toList = _ ↔ _
    rw [readValue]
    cases Text.readNumeral 10 .signed32 n.repr.toList <;> simp

theorem toList_write (index : Nat) (entry : Constant) :
    (entry.write index).toList =
      Nat.toDigits 10 index ++ '=' :: (entry.kind.toList ++ ':' :: entry.valueText.toList) := by
  show (index.repr ++ "=" ++ entry.kind ++ ":" ++ entry.valueText).toList = _
  simp

theorem colon_not_mem_kind (entry : Constant) : ':' ∉ entry.kind.toList := by
  cases entry <;> simp [Constant.kind]

/-- What is written is read back as the same index and the same entry if the index has 16 bits and the entry can be
written, whatever else is in the texts. -/
theorem readConstant_write_iff (index : Nat) (entry : Constant) :
    readConstant (entry.write index).toList = .ok (index, entry) ↔ index < 2 ^ 16 ∧ entry.Writable := by
  have hdigit : ∀ c ∈ Nat.toDigits 10 index, c.isDigit := fun c hc =>
    Nat.isDigit_of_mem_toDigits (by decide) (by decide) hc
  have hmark : '=' ∉ Nat.toDigits 10 index := fun hmem => absurd (hdigit _ hmem) (by decide)
  have htrim := Text.trimBlanks_eq_self fun c hc => Text.isBlank_of_isDigit (hdigit c hc)
  rw [toList_write, readConstant, splitFirst?_eq_some_iff.2 ⟨rfl, hmark⟩]
  dsimp only
  rw [htrim, Text.readNumeral_toDigits, splitFirst?_eq_some_iff.2 ⟨rfl, colon_not_mem_kind entry⟩]
  dsimp only
  rw [String.ofList_toList, ← readValue_valueText_iff]
  have hhi : (index : Int) ≤ Text.IntRange.unsigned16.hi ↔ index < 2 ^ 16 := by
    simp only [Text.IntRange.unsigned16]
    omega
  by_cases hindex : index < 2 ^ 16
  · rw [if_pos (hhi.2 hindex), and_iff_right hindex]
    cases readValue entry.kind entry.valueText.toList <;> simp
  · rw [if_neg (mt hhi.1 hindex)]
    exact iff_of_false (by simp) fun h => hindex h.1

/-- Marks also where they end nothing, an empty name and an empty text, and the last integers of both ranges. -/
theorem marked_constants_read_back :
    readConstant "65535=method:a=b.c.:(:.=)".toList = .ok (65535, .method ⟨"a=b.c", "", "(:.=)"⟩) ∧
      readConstant "0=int:-2147483648".toList = .ok (0, .int (-2147483648)) ∧
      readConstant "7=string:".toList = .ok (7, .string "") := by
  have hmethod := (readConstant_write_iff 65535 (.method ⟨"a=b.c", "", "(:.=)"⟩)).2 (by decide)
  have hint := (readConstant_write_iff 0 (.int (-2147483648))).2 (by decide)
  have hstring := (readConstant_write_iff 7 (.string "")).2 (by decide)
  have htexts : Constant.write 65535 (.method ⟨"a=b.c", "", "(:.=)"⟩) = "65535=method:a=b.c.:(:.=)" ∧
      Constant.write 0 (.int (-2147483648)) = "0=int:-2147483648" ∧ Constant.write 7 (.string "") = "7=string:" := by
    cbv
  rw [htexts.1] at hmethod
  rw [htexts.2.1] at hint
  rw [htexts.2.2] at hstring
  exact ⟨hmethod, hint, hstring⟩

end CommandLine

end Destack
