import Wordlang.Code.Assembly

/-!
# Reading instructions back

The text of an instruction is a row of words with single spaces between them, and reading it gives the instruction
again. Numbers may have any number of digits, and addresses zeros in front.

Main statement: `Instruction.ofText?_text`.
-/

namespace Wordlang

/-! ## Numbers -/

theorem readNat?_of_isDigit {digits : String} (hne : digits.toList ≠ []) (h : ∀ c ∈ digits.toList, c.isDigit = true) :
    readNat? digits = some (Nat.ofDigitChars 10 digits.toList 0) := by
  have hempty : digits.toList.isEmpty = false := by simpa using hne
  have hall : digits.toList.any (!·.isDigit) = false := by simpa using h
  simp only [readNat?, hempty, hall, Bool.false_eq_true, or_self, if_false]

theorem isDigit_of_mem_repr {n : Nat} {c : Char} (h : c ∈ n.repr.toList) : c.isDigit = true := by
  rw [Nat.toList_repr] at h
  exact Nat.isDigit_of_mem_toDigits (by decide) (by decide) h

theorem toList_repr_ne_nil (n : Nat) : n.repr.toList ≠ [] := by
  rw [Nat.toList_repr]
  exact Nat.toDigits_ne_nil

theorem ofDigitChars_repr (n : Nat) : Nat.ofDigitChars 10 n.repr.toList 0 = n := by
  rw [Nat.toList_repr, Nat.ofDigitChars_ten_toDigits]

theorem readNat?_repr (n : Nat) : readNat? n.repr = some n := by
  rw [readNat?_of_isDigit (toList_repr_ne_nil n) fun c => isDigit_of_mem_repr, ofDigitChars_repr]

theorem isDigit_of_mem_addressText {address : Nat} {c : Char} (h : c ∈ (addressText address).toList) :
    c.isDigit = true := by
  rw [addressText, String.toList_ofList, List.leftpad, List.mem_append] at h
  rcases h with h | h
  · rw [List.eq_of_mem_replicate h]
    rfl
  · exact Nat.isDigit_of_mem_toDigits (by decide) (by decide) h

/-- Zeros in front do not count. -/
theorem readNat?_addressText (address : Nat) : readNat? (addressText address) = some address := by
  have hne : (addressText address).toList ≠ [] := by simp [addressText, List.leftpad, Nat.toDigits_ne_nil]
  rw [readNat?_of_isDigit hne fun c => isDigit_of_mem_addressText, addressText, String.toList_ofList, List.leftpad,
    Nat.ofDigitChars_append, Nat.ofDigitChars_replicate_zero, Nat.mul_zero, Nat.ofDigitChars_ten_toDigits]

theorem readId?_repr (n : Nat) : readId? ("#" ++ n.repr) = some n := by
  have htext : ("#" ++ n.repr).toList = '#' :: n.repr.toList := by simp
  rw [readId?, htext]
  simp only [String.ofList_toList, readNat?_repr]

namespace Numeral

theorem le_ofDigitChars (digits : List Char) (value : Nat) : value ≤ Nat.ofDigitChars 10 digits value := by
  induction digits generalizing value with
  | nil => exact Nat.le_refl value
  | cons c cs ih =>
    rw [Nat.ofDigitChars_cons]
    exact Nat.le_trans (by omega) (ih _)

/-- Digits are read through if what they stand for keeps to the limit: so does each part of them. -/
theorem magnitude_of_le {limit : Nat} {beyond : NumeralError} {digits : List Char} {value : Nat}
    (h : ∀ c ∈ digits, c.isDigit = true) (hle : Nat.ofDigitChars 10 digits value ≤ limit) :
    magnitude limit beyond value digits = .ok (Nat.ofDigitChars 10 digits value) := by
  induction digits generalizing value with
  | nil => rfl
  | cons c cs ih =>
    rw [List.forall_mem_cons] at h
    rw [Nat.ofDigitChars_cons] at hle ⊢
    have hhead : ¬ limit < 10 * value + digitValue c := Nat.not_lt.2 (Nat.le_trans (le_ofDigitChars cs _) hle)
    rw [magnitude, if_pos h.1]
    simp only [if_neg hhead]
    exact ih h.2 hle

theorem magnitude_repr {limit n : Nat} (beyond : NumeralError) (h : n ≤ limit) :
    magnitude limit beyond 0 n.repr.toList = .ok n := by
  have hle : Nat.ofDigitChars 10 n.repr.toList 0 ≤ limit := (ofDigitChars_repr n).symm ▸ h
  rw [magnitude_of_le (fun c => isDigit_of_mem_repr) hle, ofDigitChars_repr]

theorem exists_repr (n : Nat) : ∃ c cs, n.repr.toList = c :: cs ∧ c.isDigit = true := by
  obtain ⟨c, cs, hcs⟩ := List.exists_cons_of_ne_nil (toList_repr_ne_nil n)
  exact ⟨c, cs, hcs, isDigit_of_mem_repr (hcs ▸ List.mem_cons_self)⟩

theorem read_repr {n : Nat} (h : n ≤ Word.maxNat) : read n.repr.toList = .ok (Int64.ofInt n) := by
  obtain ⟨c, cs, hcs, hc⟩ := exists_repr n
  have hpositive : read.positive (c :: cs) = .ok (Int64.ofInt n) := by
    rw [read.positive, ← hcs, magnitude_repr _ h]
    rfl
  have hminus : c ≠ '-' := by
    rintro rfl
    cases hc
  have hplus : c ≠ '+' := by
    rintro rfl
    cases hc
  rw [hcs]
  cases cs with
  | nil => simpa [read, hminus, hplus] using hpositive
  | cons d ds => simpa [read, hminus, hplus] using hpositive

theorem read_neg_repr {n : Nat} (h : n ≤ Word.maxNat + 1) :
    read ('-' :: n.repr.toList) = .ok (Int64.ofInt (-n)) := by
  obtain ⟨c, cs, hcs, -⟩ := exists_repr n
  have hread := magnitude_repr .tooSmall h
  rw [hcs] at hread ⊢
  simp only [read, if_true, hread]
  rfl

theorem read_text (w : Word) : read w.text.toList = .ok w := by
  have hmin : -9223372036854775808 ≤ w.toInt := w.le_toInt
  have hmax : w.toInt ≤ 9223372036854775807 := w.toInt_le
  have hw : Int64.ofInt w.toInt = w := Int64.ofInt_toInt w
  rw [Word.text]
  generalize w.toInt = value at *
  subst hw
  cases value with
  | ofNat n =>
    have hn : n ≤ Word.maxNat := Int.ofNat_le.1 hmax
    exact read_repr hn
  | negSucc n =>
    have hn : n + 1 ≤ Word.maxNat + 1 := by
      unfold Word.maxNat
      omega
    have htext : (Int.negSucc n).repr.toList = '-' :: (n + 1).repr.toList := by simp [Int.repr]
    rw [htext]
    exact read_neg_repr hn

end Numeral

/-! ## Words -/

/-- The word can stand between spaces and in a line. -/
def isPlain (word : String) : Bool := word.toList.all fun c => c != ' ' && c != '\n'

theorem isPlain_of_isDigit {word : String} (h : ∀ c ∈ word.toList, c.isDigit = true) : isPlain word = true := by
  rw [isPlain, List.all_eq_true]
  intro c hc
  have hdigit := h c hc
  rw [Bool.and_eq_true, bne_iff_ne, bne_iff_ne]
  constructor
  · rintro rfl
    cases hdigit
  · rintro rfl
    cases hdigit

theorem isPlain_append {a b : String} : isPlain (a ++ b) = (isPlain a && isPlain b) := by
  rw [isPlain, String.toList_append, List.all_append]
  rfl

theorem isPlain_repr (n : Nat) : isPlain n.repr = true := isPlain_of_isDigit fun _ => isDigit_of_mem_repr

theorem isPlain_addressText (address : Nat) : isPlain (addressText address) = true :=
  isPlain_of_isDigit fun _ => isDigit_of_mem_addressText

theorem isPlain_text (w : Word) : isPlain w.text = true := by
  rw [Word.text]
  cases w.toInt with
  | ofNat n => exact isPlain_repr n
  | negSucc n =>
    rw [Int.repr, isPlain_append, isPlain_repr]
    rfl

/-- Words with single spaces between them are what stands between the spaces. -/
theorem splitOn_spaced {words : List String} (hne : words ≠ []) (h : words.all isPlain = true) :
    ((" ".intercalate words).toList.splitOn ' ').map String.ofList = words := by
  have hspace : ∀ cs ∈ words.map String.toList, ' ' ∉ cs := by
    intro cs hcs hmem
    obtain ⟨word, hword, rfl⟩ := List.mem_map.1 hcs
    have hplain := List.all_eq_true.1 h word hword
    rw [isPlain, List.all_eq_true] at hplain
    cases hplain ' ' hmem
  have hsep : " ".toList = [' '] := rfl
  rw [String.toList_intercalate, hsep, List.splitOn_intercalate ' ' hspace (by simpa using hne), List.map_map]
  simp [Function.comp_def]

theorem newline_notMem_spaced {words : List String} (h : words.all isPlain = true) :
    '\n' ∉ (" ".intercalate words).toList := by
  induction words with
  | nil => simp
  | cons word words ih =>
    rw [List.all_cons, Bool.and_eq_true] at h
    have hword : '\n' ∉ word.toList := by
      intro hmem
      cases List.all_eq_true.1 h.1 '\n' hmem
    cases words with
    | nil => simpa using hword
    | cons next words =>
      rw [String.intercalate_cons_cons, String.toList_append, String.toList_append]
      simpa [hword] using ih h.2

namespace Instruction

def words : Instruction → List String
  | push value => ["push", value.text]
  | pop => ["pop"]
  | load (.arg i) => ["ldarg", i.repr]
  | store (.arg i) => ["starg", i.repr]
  | load (.loc i) => ["ldloc", i.repr]
  | store (.loc i) => ["stloc", i.repr]
  | load (.global id) => ["ldglob", id.repr]
  | store (.global id) => ["stglob", id.repr]
  | neg => ["neg"]
  | arith op => [op.mnemonic]
  | jump target => ["jmp", addressText target]
  | jumpIfZero target => ["jz", addressText target]
  | jumpIfNonZero target => ["jnz", addressText target]
  | call f argc => ["call", "#" ++ f.repr, argc.repr]
  | callExternal f argc .func => ["callext", "#" ++ f.repr, argc.repr]
  | callExternal f argc .proc => ["callext", "#" ++ f.repr, argc.repr, "void"]
  | ret => ["ret"]
  | retValue => ["retval"]

theorem words_ne_nil (i : Instruction) : i.words ≠ [] := by
  unfold words
  split <;> simp

theorem isPlain_words (i : Instruction) : i.words.all isPlain = true := by
  have hid : ∀ n : Nat, isPlain ("#" ++ n.repr) = true := by
    intro n
    rw [isPlain_append, isPlain_repr]
    rfl
  have hmnemonic : ∀ op : Arith, isPlain op.mnemonic = true := by
    intro op
    cases op <;> rfl
  unfold words
  split <;> simp [isPlain_repr, isPlain_text, isPlain_addressText, hid, hmnemonic] <;> decide

theorem text_eq (i : Instruction) : i.text = " ".intercalate i.words := by
  apply String.toList_injective
  unfold text words
  split <;> simp

theorem ofWords?_words (i : Instruction) : ofWords? i.words = some i := by
  have hcall : ∀ (make : Nat → Nat → Instruction) (f argc : Nat),
      ((readId? ("#" ++ f.repr)).bind fun f => (readNat? argc.repr).bind fun argc => some (make f argc)) =
        some (make f argc) := by
    intro make f argc
    rw [readId?_repr, readNat?_repr]
    rfl
  cases i with
  | push value => exact congrArg (fun r => r.toOption.map push) (Numeral.read_text value)
  | load slot => cases slot <;> exact congrArg (Option.map _) (readNat?_repr _)
  | store slot => cases slot <;> exact congrArg (Option.map _) (readNat?_repr _)
  | arith op => cases op <;> rfl
  | jump target => exact congrArg (Option.map jump) (readNat?_addressText target)
  | jumpIfZero target => exact congrArg (Option.map jumpIfZero) (readNat?_addressText target)
  | jumpIfNonZero target => exact congrArg (Option.map jumpIfNonZero) (readNat?_addressText target)
  | call f argc => exact hcall call f argc
  | callExternal f argc kind =>
    cases kind with
    | func => exact hcall (callExternal · · .func) f argc
    | proc => exact hcall (callExternal · · .proc) f argc
  | pop | neg | ret | retValue => rfl

theorem ofText?_text (i : Instruction) : ofText? i.text = some i := by
  rw [ofText?, text_eq, splitOn_spaced i.words_ne_nil i.isPlain_words, ofWords?_words]

end Instruction

end Wordlang
