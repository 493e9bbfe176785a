import Wordlang.Code.Listing
import Wordlang.Compile
import Wordlang.Proofs.Code.Assembly
import Wordlang.Proofs.Compiler.Output
import Wordlang.Proofs.Lexer.Rendering
import Wordlang.Proofs.Printer.RoundTrip

/-!
# Listings lose nothing

A listing is read line by line. A head line opens a function where the code read so far ends, and a line of code
adds an instruction. Since compiled functions stand one behind the other without a gap, this gives the image back.

Main statement: `Image.listing_lossless`.
-/

namespace Wordlang

/-! ## Lines -/

/-- What a line of a listing holds. -/
inductive ListingLine
  | blank
  | head (id : Nat) (name : String) (params locals : Nat) (kind : FunctionKind)
  | code (address : Nat) (instruction : Instruction)
  deriving DecidableEq

def FunctionKind.ofKeyword? : String → Option FunctionKind
  | "func" => some .func
  | "proc" => some .proc
  | _ => none

namespace ListingLine

/-- Reads the names and numbers of a head line. -/
def ofHead? : List String → Option ListingLine
  | ["", id, kind, name, "args", params, "", "locals", locals, "", ""] =>
    return head (← readNat? id) name (← readNat? params) (← readNat? locals) (← FunctionKind.ofKeyword? kind)
  | _ => none

/-- Reads the words of a line of code. -/
def ofCode? : List String → Option ListingLine
  | "" :: "" :: address :: "" :: words => return code (← readNat? address) (← Instruction.ofWords? words)
  | _ => none

/-- The names and numbers in a text, which other characters separate. -/
def fields (cs : List Char) : List String := (cs.splitOnP fun c => !Lexeme.isNameChar c).map String.ofList

def read? (line : List Char) : Option ListingLine :=
  if line = [] then some blank
  else if line.head? = some '#' then ofHead? (fields line)
  else ofCode? ((line.splitOn ' ').map String.ofList)

def address? : ListingLine → Option Nat
  | code address _ => some address
  | _ => none

/-! ## Head lines -/

theorem fields_append (word : String) {c : Char} (h : ∀ c ∈ word.toList, Lexeme.isNameChar c = true)
    (hc : Lexeme.isNameChar c = false) (rest : List Char) :
    fields (word.toList ++ c :: rest) = word :: fields rest := by
  have hword : ∀ c ∈ word.toList, (!Lexeme.isNameChar c) = false := by simpa using h
  rw [fields, List.splitOnP_append_cons_of_forall_mem hword c (by simp [hc]), List.map_cons, String.ofList_toList]
  rfl

theorem isNameChar_of_mem_repr {n : Nat} {c : Char} (h : c ∈ n.repr.toList) : Lexeme.isNameChar c = true :=
  Lexeme.isNameChar_of_isDigit (isDigit_of_mem_repr h)

theorem isNameChar_of_mem_keyword {kind : FunctionKind} {c : Char} (h : c ∈ kind.keyword.toList) :
    Lexeme.isNameChar c = true := by
  have hall : kind.keyword.toList.all Lexeme.isNameChar = true := by cases kind <;> rfl
  exact List.all_eq_true.1 hall c h

/-- A head line without its end. -/
def headText (entry : Entry) (id : Nat) : List Char :=
  '#' :: (id.repr.toList ++ ' ' :: (entry.kind.keyword.toList ++ ' ' :: (entry.name.toList ++ '(' ::
    ("args".toList ++ '=' :: (entry.params.repr.toList ++ ',' :: ' ' :: ("locals".toList ++ '=' ::
      (entry.locals.repr.toList ++ [')', ':'])))))))

theorem toList_headLine (entry : Entry) (id : Nat) : (entry.headLine id).toList = headText entry id ++ ['\n'] := by
  delta Entry.headLine headText
  simp only [String.toList_append, List.append_assoc, List.cons_append]
  rfl

section

variable {entry : Entry} (hname : IsIdentifier entry.name) (id : Nat)

include hname

theorem fields_headText : fields (headText entry id) = ["", id.repr, entry.kind.keyword, entry.name, "args",
    entry.params.repr, "", "locals", entry.locals.repr, "", ""] := by
  have hmark : ∀ {c rest}, Lexeme.isNameChar c = false → fields (c :: rest) = "" :: fields rest := fun hc =>
    fields_append "" (by simp) hc _
  have hargs : ∀ c ∈ "args".toList, Lexeme.isNameChar c = true := List.all_eq_true.1 rfl
  have hlocals : ∀ c ∈ "locals".toList, Lexeme.isNameChar c = true := List.all_eq_true.1 rfl
  rw [headText, hmark rfl, fields_append _ (fun _ => isNameChar_of_mem_repr) rfl,
    fields_append _ (fun _ => isNameChar_of_mem_keyword) rfl,
    fields_append _ (Lexeme.isNameChar_of_isWord hname.1) rfl, fields_append "args" hargs rfl,
    fields_append _ (fun _ => isNameChar_of_mem_repr) rfl, hmark rfl, fields_append "locals" hlocals rfl,
    fields_append _ (fun _ => isNameChar_of_mem_repr) rfl, hmark rfl]
  rfl

theorem read?_headText :
    read? (headText entry id) = some (head id entry.name entry.params entry.locals entry.kind) := by
  have hkind : FunctionKind.ofKeyword? entry.kind.keyword = some entry.kind := by cases entry.kind <;> rfl
  have hhead : (headText entry id).head? = some '#' := rfl
  rw [read?, if_neg (by simp [headText]), if_pos hhead, fields_headText hname]
  simp [ofHead?, readNat?_repr, hkind]

theorem newline_notMem_headText : '\n' ∉ headText entry id := by
  have hchar : ∀ {cs : List Char}, (∀ c ∈ cs, Lexeme.isNameChar c = true) → '\n' ∉ cs := by
    intro cs h hmem
    cases h _ hmem
  have hrepr : ∀ n : Nat, '\n' ∉ Nat.toDigits 10 n := by
    intro n
    rw [← Nat.toList_repr]
    exact hchar fun c => isNameChar_of_mem_repr
  have hkeyword : '\n' ∉ entry.kind.keyword.toList := hchar fun c => isNameChar_of_mem_keyword
  simp [headText, hrepr, hkeyword, hchar (Lexeme.isNameChar_of_isWord hname.1)]

end

/-! ## Lines of code -/

/-- The words of a line of code: the spaces in front and behind the address make empty ones. -/
def codeWords (address : Nat) (i : Instruction) : List String := "" :: "" :: addressText address :: "" :: i.words

/-- A line of code without its end. -/
def codeText (address : Nat) (i : Instruction) : List Char := (" ".intercalate (codeWords address i)).toList

theorem isPlain_codeWords (address : Nat) (i : Instruction) : (codeWords address i).all isPlain = true := by
  have hempty : isPlain "" = true := rfl
  simp only [codeWords, List.all_cons, hempty, isPlain_addressText, i.isPlain_words, Bool.and_self]

theorem toList_codeLines (address : Nat) (i : Instruction) (is : List Instruction) :
    (codeLines address (i :: is)).toList = codeText address i ++ '\n' :: (codeLines (address + 1) is).toList := by
  obtain ⟨word, words, hwords⟩ := List.exists_cons_of_ne_nil i.words_ne_nil
  rw [codeLines, i.text_eq, codeText, codeWords, hwords]
  simp [String.intercalate_cons_cons]

theorem read?_codeText (address : Nat) (i : Instruction) : read? (codeText address i) = some (code address i) := by
  have hcode : ofCode? (codeWords address i) = some (code address i) := by
    simp [ofCode?, codeWords, readNat?_addressText, Instruction.ofWords?_words]
  have hhead : (codeText address i).head? = some ' ' := by
    simp [codeText, codeWords, String.intercalate_cons_cons]
  have hne : codeText address i ≠ [] := by
    intro h
    simp [h] at hhead
  rw [read?, if_neg hne, if_neg (by simp [hhead]), codeText,
    splitOn_spaced (by simp [codeWords]) (isPlain_codeWords address i), hcode]

theorem newline_notMem_codeText (address : Nat) (i : Instruction) : '\n' ∉ codeText address i :=
  newline_notMem_spaced (isPlain_codeWords address i)

end ListingLine

/-! ## Texts of whole lines -/

namespace Listing

/-- Reads the lines of a text. -/
def read? (cs : List Char) : Option (List ListingLine) := (cs.splitOn '\n').mapM ListingLine.read?

/-- The text consists of whole lines, which are read as given. -/
def Reads (cs : List Char) (lines : List ListingLine) : Prop :=
  ∀ rest, read? (cs ++ rest) = (read? rest).map (lines ++ ·)

namespace Reads

variable {cs cs' : List Char} {lines lines' : List ListingLine}

theorem nil : Reads [] [] := by
  intro rest
  simp

theorem append (h : Reads cs lines) (h' : Reads cs' lines') : Reads (cs ++ cs') (lines ++ lines') := by
  intro rest
  rw [List.append_assoc, h, h', Option.map_map]
  simp [Function.comp_def]

theorem line {line : List Char} {l : ListingLine} (hend : '\n' ∉ line) (h : ListingLine.read? line = some l) :
    Reads (line ++ ['\n']) [l] := by
  intro rest
  have hsplit : (line ++ '\n' :: rest).splitOn '\n' = line :: rest.splitOn '\n' := by
    refine List.splitOnP_append_cons_of_forall_mem (fun c hc => ?_) '\n' rfl rest
    rw [beq_eq_false_iff_ne]
    rintro rfl
    exact hend hc
  rw [read?, List.append_assoc, List.singleton_append, hsplit, List.mapM_cons, h, read?]
  cases (rest.splitOn '\n').mapM ListingLine.read? <;> rfl

theorem blank : Reads ['\n'] [.blank] := line List.not_mem_nil rfl

end Reads

/-- The lines of instructions that stand at `address` and behind it. -/
def codeFrom (address : Nat) : List Instruction → List ListingLine
  | [] => []
  | i :: is => .code address i :: codeFrom (address + 1) is

theorem reads_codeLines (address : Nat) (is : List Instruction) :
    Reads (codeLines address is).toList (codeFrom address is) := by
  induction is generalizing address with
  | nil => exact .nil
  | cons i is ih =>
    have hline := Reads.line (ListingLine.newline_notMem_codeText address i) (ListingLine.read?_codeText address i)
    have happend := hline.append (ih (address + 1))
    rwa [List.append_assoc, List.singleton_append, ← ListingLine.toList_codeLines] at happend

/-- The part of a listing that is about one function. -/
structure Part where
  entry : Entry
  code : List Instruction

namespace Part

def text (part : Part) (id : Nat) : String := part.entry.headLine id ++ codeLines part.entry.address part.code

def lines (part : Part) (id : Nat) : List ListingLine :=
  .head id part.entry.name part.entry.params part.entry.locals part.entry.kind ::
    codeFrom part.entry.address part.code

theorem reads_text {part : Part} (hname : IsIdentifier part.entry.name) (id : Nat) :
    Reads (part.text id).toList (part.lines id) := by
  have hline := Reads.line (ListingLine.newline_notMem_headText hname id) (ListingLine.read?_headText hname id)
  rw [← ListingLine.toList_headLine] at hline
  rw [text, String.toList_append]
  exact hline.append (reads_codeLines part.entry.address part.code)

end Part

/-- The texts of parts with ids from `id` on. -/
def textsFrom (id : Nat) : List Part → List String
  | [] => []
  | part :: parts => part.text id :: textsFrom (id + 1) parts

/-- The lines of parts with ids from `id` on, and empty lines between them. -/
def linesFrom (id : Nat) : List Part → List ListingLine
  | [] => []
  | [part] => part.lines id
  | part :: next :: parts => part.lines id ++ .blank :: linesFrom (id + 1) (next :: parts)

theorem linesFrom_cons (id : Nat) (part : Part) (parts : List Part) : ∃ gap, (gap = [] ∨ gap = [.blank]) ∧
    linesFrom id (part :: parts) = part.lines id ++ (gap ++ linesFrom (id + 1) parts) := by
  cases parts with
  | nil => exact ⟨[], .inl rfl, (List.append_nil _).symm⟩
  | cons next parts => exact ⟨[.blank], .inr rfl, rfl⟩

theorem getElem?_textsFrom (id i : Nat) (parts : List Part) :
    (textsFrom id parts)[i]? = parts[i]?.map (·.text (id + i)) := by
  induction parts generalizing id i with
  | nil => simp [textsFrom]
  | cons part parts ih =>
    cases i with
    | zero => rw [textsFrom, List.getElem?_cons_zero, List.getElem?_cons_zero, Option.map_some, Nat.add_zero]
    | succ i =>
      rw [textsFrom, List.getElem?_cons_succ, List.getElem?_cons_succ, ih, Nat.add_assoc, Nat.add_comm 1 i]

theorem reads_parts {parts : List Part} (hnames : ∀ part ∈ parts, IsIdentifier part.entry.name) (id : Nat) :
    Reads ("\n".intercalate (textsFrom id parts)).toList (linesFrom id parts) := by
  induction parts generalizing id with
  | nil => exact .nil
  | cons part parts ih =>
    rw [List.forall_mem_cons] at hnames
    have hpart := part.reads_text hnames.1 id
    cases parts with
    | nil => simpa [textsFrom, linesFrom] using hpart
    | cons next parts =>
      have hrest := ih hnames.2 (id + 1)
      rw [textsFrom] at hrest
      rw [textsFrom, textsFrom, String.intercalate_cons_cons, String.toList_append, String.toList_append,
        List.append_assoc]
      exact hpart.append (Reads.blank.append hrest)

/-! ## From lines to the image -/

/-- The code of the first part starts at `start`, and each other's where the code before it ends. -/
def Placed (start : Nat) : List Part → Prop
  | [] => True
  | part :: parts => part.entry.address = start ∧ Placed (start + part.code.length) parts

theorem placed_of_offset {start : Nat} {parts : List Part} (h : ∀ id part, parts[id]? = some part →
    part.entry.address = start + Emit.offset (parts.map (·.code)) id) : Placed start parts := by
  induction parts generalizing start with
  | nil => trivial
  | cons part parts ih =>
    refine ⟨by simpa [Emit.offset_zero] using h 0 part rfl, ih fun id next hnext => ?_⟩
    rw [h (id + 1) next hnext, List.map_cons, Emit.offset_cons, Nat.add_assoc]

theorem addresses_codeFrom (address : Nat) (is : List Instruction) :
    (codeFrom address is).filterMap ListingLine.address? = List.range' address is.length := by
  induction is generalizing address with
  | nil => rfl
  | cons i is ih =>
    rw [codeFrom, List.filterMap_cons, ih, List.length_cons, List.range'_succ]
    rfl

theorem addresses_linesFrom {start : Nat} {parts : List Part} (h : Placed start parts) (id : Nat) :
    (linesFrom id parts).filterMap ListingLine.address? =
      List.range' start (parts.map (·.code)).flatten.length := by
  induction parts generalizing start id with
  | nil => rfl
  | cons part parts ih =>
    obtain ⟨hpart, hparts⟩ := h
    obtain ⟨gap, hgap, hlines⟩ := linesFrom_cons id part parts
    have hnone : gap.filterMap ListingLine.address? = [] := by
      rcases hgap with rfl | rfl <;> rfl
    have hcode : (part.lines id).filterMap ListingLine.address? = List.range' start part.code.length := by
      rw [Part.lines, ← hpart, ← addresses_codeFrom]
      rfl
    rw [hlines, List.filterMap_append, List.filterMap_append, hnone, hcode, List.nil_append, ih hparts (id + 1),
      List.map_cons, List.flatten_cons, List.length_append, List.range'_append_1]

end Listing

namespace Image

/-- Adds what a line tells. -/
def add (image : Image) : ListingLine → Image
  | .blank => image
  | .head _ name params locals kind =>
    { image with entries := image.entries.push ⟨name, params, locals, kind, image.code.size⟩ }
  | .code _ i => { image with code := image.code.push i }

/-- The image that a listing is about. -/
def ofListing? (text : String) : Option Image := (Listing.read? text.toList).map (·.foldl add {})

theorem foldl_codeFrom (image : Image) (address : Nat) (is : List Instruction) :
    (Listing.codeFrom address is).foldl add image = { image with code := image.code ++ is.toArray } := by
  induction is generalizing image address with
  | nil => simp [Listing.codeFrom]
  | cons i is ih =>
    rw [Listing.codeFrom, List.foldl_cons, ih]
    simp [add]

/-- To read the lines of parts adds their code and their entries. -/
theorem foldl_linesFrom {parts : List Listing.Part} (image : Image) (h : Listing.Placed image.code.size parts)
    (id : Nat) : (Listing.linesFrom id parts).foldl add image =
      ⟨image.code ++ (parts.map (·.code)).flatten.toArray, image.entries ++ (parts.map (·.entry)).toArray⟩ := by
  induction parts generalizing image id with
  | nil => simp [Listing.linesFrom]
  | cons part parts ih =>
    obtain ⟨hpart, hparts⟩ := h
    obtain ⟨gap, hgap, hlines⟩ := Listing.linesFrom_cons id part parts
    have hsame : ∀ image : Image, gap.foldl add image = image := by
      intro image
      rcases hgap with rfl | rfl <;> rfl
    have hfirst : (part.lines id).foldl add image =
        ⟨image.code ++ part.code.toArray, image.entries.push part.entry⟩ := by
      rw [Listing.Part.lines, List.foldl_cons, foldl_codeFrom, add, ← hpart]
    rw [hlines, List.foldl_append, List.foldl_append, hsame, hfirst, ih _ (by simpa using hparts)]
    simp

end Image

/-! ## Compiled programs -/

/-- The parts of the listing of an image that was put together from `parts`. -/
def Image.listingParts (image : Image) (parts : List (List Instruction)) : List Listing.Part :=
  (image.entries.toList.zip parts).map fun part => ⟨part.1, part.2⟩

namespace Image.Assembled

variable {p : Program} {env : Environment} {parts : List (List Instruction)} {image : Image} {id : Nat}

theorem map_entry (h : image.Assembled p env parts) :
    (image.listingParts parts).map (·.entry) = image.entries.toList := by
  have hlength : image.entries.toList.length ≤ parts.length := by simp [h.entries, h.length]
  rw [listingParts, List.map_map]
  exact List.map_fst_zip hlength

theorem map_code (h : image.Assembled p env parts) : (image.listingParts parts).map (·.code) = parts := by
  have hlength : parts.length ≤ image.entries.toList.length := by simp [h.entries, h.length]
  rw [listingParts, List.map_map]
  exact List.map_snd_zip hlength

/-- A part of the listing is about the function at its place. -/
theorem getElem?_listingParts (h : image.Assembled p env parts) {part : Listing.Part}
    (hpart : (image.listingParts parts)[id]? = some part) :
    image.entries[id]? = some part.entry ∧ parts[id]? = some part.code := by
  have hentry := congrArg (·[id]?) h.map_entry
  have hcode := congrArg (·[id]?) h.map_code
  simp only [List.getElem?_map, hpart, Option.map_some, Array.getElem?_toList] at hentry hcode
  exact ⟨hentry.symm, hcode.symm⟩

theorem listing_eq (h : image.Assembled p env parts) :
    image.listing = "\n".intercalate (Listing.textsFrom 0 (image.listingParts parts)) := by
  refine congrArg _ (List.ext_getElem? fun id => ?_)
  rw [List.getElem?_mapIdx, Listing.getElem?_textsFrom, Nat.zero_add]
  nth_rewrite 1 [← h.map_entry]
  rw [List.getElem?_map, Option.map_map]
  cases hpart : (image.listingParts parts)[id]? with
  | none => rw [Option.map_none, Option.map_none]
  | some part =>
    have hcode : image.functionCode? id = some part.code :=
      (h.functionCode?_eq id).trans (h.getElem?_listingParts hpart).2
    rw [Option.map_some, Option.map_some, Function.comp_apply, functionListing, hcode, Option.getD_some,
      Listing.Part.text]

theorem placed (h : image.Assembled p env parts) : Listing.Placed 0 (image.listingParts parts) := by
  refine Listing.placed_of_offset fun id part hpart => ?_
  obtain ⟨f, -, -, -, hentry⟩ := h.exists_function (h.getElem?_listingParts hpart).1
  rw [hentry, h.map_code, Nat.zero_add]
  rfl

theorem read?_listing (h : image.Assembled p env parts) (hnames : ∀ f ∈ p, IsIdentifier f.name) :
    Listing.read? image.listing.toList = some (Listing.linesFrom 0 (image.listingParts parts) ++ [.blank]) := by
  have hidentifiers : ∀ part ∈ image.listingParts parts, IsIdentifier part.entry.name := by
    intro part hmem
    obtain ⟨id, hpart⟩ := List.mem_iff_getElem?.1 hmem
    obtain ⟨f, -, hf, -, hentry⟩ := h.exists_function (h.getElem?_listingParts hpart).1
    rw [hentry]
    exact hnames f (List.mem_of_getElem? hf)
  have hread := Listing.reads_parts hidentifiers 0 []
  rw [List.append_nil] at hread
  have hend : Listing.read? [] = some [.blank] := rfl
  rw [h.listing_eq, hread, hend, Option.map_some]

theorem ofListing?_listing (h : image.Assembled p env parts) (hnames : ∀ f ∈ p, IsIdentifier f.name) :
    ofListing? image.listing = some image := by
  have hfold := foldl_linesFrom {} h.placed 0
  rw [h.map_entry, h.map_code, ← h.code] at hfold
  rw [ofListing?, h.read?_listing hnames, Option.map_some, List.foldl_append, hfold]
  simp [add]

end Image.Assembled

/-- What compiles from a source text was put together from the functions of a program whose names are identifiers. -/
theorem Image.assembled_of_compileSource {source : String} {env : Environment} {image : Image}
    (h : compileSource source env = .ok image) :
    ∃ p parts, image.Assembled p env parts ∧ ∀ f ∈ p, IsIdentifier f.name := by
  have hok : ∀ {ε ε' α : Type} {f : ε → ε'} {x : Except ε α} {a : α}, x.mapError f = .ok a → x = .ok a := by
    intro ε ε' α f x a hx
    cases x with
    | error e => cases hx
    | ok a' => exact congrArg Except.ok (Except.ok.inj hx)
  obtain ⟨p, hp, h⟩ := parts_ok h
  obtain ⟨parts, hassembled⟩ := Assembled.of_compile (hok h)
  exact ⟨p, parts, hassembled, fun f hf => ((Program.of_parse (hok hp)).1 f hf).1⟩

namespace Image

/-- The addresses that the lines of code of a listing show. -/
def shownAddresses? (text : String) : Option (List Nat) :=
  (Listing.read? text.toList).map (·.filterMap ListingLine.address?)

/-- Images that were compiled from source texts have the same listing only if they are the same, and a listing shows
each address of the code once, in increasing order. -/
theorem listing_lossless {source source' : String} {env env' : Environment} {image image' : Image}
    (h : compileSource source env = .ok image) (h' : compileSource source' env' = .ok image') :
    (image.listing = image'.listing → image = image') ∧
      shownAddresses? image.listing = some (List.range image.code.size) := by
  obtain ⟨p, parts, hassembled, hnames⟩ := assembled_of_compileSource h
  obtain ⟨p', parts', hassembled', hnames'⟩ := assembled_of_compileSource h'
  constructor
  · intro hlisting
    have hread := hassembled.ofListing?_listing hnames
    rw [hlisting, hassembled'.ofListing?_listing hnames', Option.some_inj] at hread
    exact hread.symm
  · have hsize : image.code.size = parts.flatten.length := by simp [hassembled.code]
    rw [shownAddresses?, hassembled.read?_listing hnames, Option.map_some, List.filterMap_append,
      Listing.addresses_linesFrom hassembled.placed, hassembled.map_code, ← hsize, List.range_eq_range']
    simp [ListingLine.address?]

/-- A call of `F` as a statement leaves nothing if `F` is a procedure, and a value to drop if it is a function. -/
def calling : FunctionKind → Image
  | .func => ⟨#[.callExternal 0 0 .func, .pop, .ret], #[⟨"P", 0, 0, .proc, 0⟩]⟩
  | .proc => ⟨#[.callExternal 0 0 .proc, .ret], #[⟨"P", 0, 0, .proc, 0⟩]⟩

theorem calling_listings_differ :
    (∀ kind, compileSource (additionSource 0) ⟨[⟨"F", 0, kind⟩], []⟩ = .ok (calling kind)) ∧
    (calling .func).listing ≠ (calling .proc).listing ∧
    shownAddresses? (calling .func).listing = some [0, 1, 2] := by
  have hcompile : ∀ kind, compileSource (additionSource 0) ⟨[⟨"F", 0, kind⟩], []⟩ = .ok (calling kind) := by
    intro kind
    rw [compileSource, parse_additionSource (Nat.zero_le _)]
    cases kind <;> rfl
  have hlossless := listing_lossless (hcompile .func) (hcompile .proc)
  refine ⟨hcompile, fun heq => ?_, hlossless.2⟩
  exact absurd (hlossless.1 heq) (by decide)

end Image

end Wordlang
