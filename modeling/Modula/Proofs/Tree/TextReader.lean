import Mathlib.Data.List.Basic
import Modula.Proofs.Tree.Validity
import Modula.Tree.Text

/-!
# Reading written trees

The text of a tree is read back character by character. The reader keeps the nodes that have been opened and not closed
yet, and where in a part it is: in a name, in a quoted value, or in an escape of one. When a node is closed, the schema
tells from its type whether it holds subnodes or values. What the writer puts after a text takes the reader from what it
made of that text to the same with one part more (`TreeReader.read_writeAfter`), so the text of a valid tree gives that
tree (`Node.ofText?_text`), and no two valid trees have the same text.
-/

set_option autoImplicit false

namespace Modula

/-- The parts of a node that have been read, last ones first. -/
structure PartsRead where
  subnodes : List Node := []
  values : List String := []

namespace TreeReader

/-- Where in a part a reader of a written tree is, with the characters of the part so far, last one first. -/
inductive Place where
  | between
  /-- In the name of a type after a parenthesis. -/
  | name (letters : List Char)
  /-- In the bare name of the empty node. -/
  | bare (letters : List Char)
  | value (chars : List Char)
  /-- After a backslash in a value. -/
  | escape (chars : List Char)
  /-- Before the brace of a character that is written by number. -/
  | numbered (chars : List Char)
  | number (chars : List Char) (n : ℕ)

end TreeReader

/-- A reader of a written tree: the parts of the innermost open node, and the nodes around it with their parts. -/
structure TreeReader where
  place : TreeReader.Place := .between
  parts : PartsRead := {}
  outer : List (NodeType × PartsRead) := []

namespace TreeReader

/-- The value of a digit in base sixteen. -/
def hexDigit? (c : Char) : Option ℕ := (List.range 16).find? fun d => Nat.digitChar d == c

/-- The character that a letter after a backslash stands for; other characters stand for themselves. -/
def unescaped (c : Char) : Char :=
  if c = 't' then '\t' else if c = 'r' then '\r' else if c = 'n' then '\n' else if c = '0' then '\x00' else c

variable (r : TreeReader)

/-- The reader with subnodes added to the open node. -/
def add (ns : List Node) : TreeReader :=
  { r with parts := { r.parts with subnodes := ns.reverse ++ r.parts.subnodes } }

/-- The reader with values added to the open node. -/
def addValues (vs : List String) : TreeReader :=
  { r with parts := { r.parts with values := vs.reverse ++ r.parts.values } }

/-- The reader at another place. -/
def moveTo (p : Place) : TreeReader := { r with place := p }

/-- The reader after the name of a type that opens a node. -/
def opened (t : NodeType) : TreeReader := { outer := (t, r.parts) :: r.outer }

/-- The reader after the end of the open node. -/
def closed : Option TreeReader :=
  match r.outer with
  | [] => none
  | (t, parts) :: outer =>
    let n := if t.isTerminal then Node.leaf t r.parts.values.reverse else .inner t r.parts.subnodes.reverse
    some ({ parts := parts, outer := outer : TreeReader }.add [n])

/-- Reads a letter of a bare name, which is complete as soon as it is that of the empty node. -/
def letter (letters : List Char) (c : Char) : TreeReader :=
  if (c :: letters).reverse = NodeType.empty.name.toList then (r.moveTo .between).add [.empty]
  else r.moveTo (.bare (c :: letters))

/-- Reads a character between two parts. -/
def start (c : Char) : Option TreeReader :=
  if c = ' ' then some r
  else if c = ')' then r.closed
  else if c = '(' then some (r.moveTo (.name []))
  else if c = '"' then some (r.moveTo (.value []))
  else some (r.letter [] c)

/-- Reads a character. -/
def step (r : TreeReader) (c : Char) : Option TreeReader :=
  match r.place with
  | .between => r.start c
  | .name letters =>
    if c = ' ' ∨ c = ')' then do (r.opened (← NodeType.ofName? (String.ofList letters.reverse))).start c
    else some (r.moveTo (.name (c :: letters)))
  | .bare letters => some (r.letter letters c)
  | .value cs =>
    if c = '"' then some ((r.moveTo .between).addValues [String.ofList cs.reverse])
    else if c = '\\' then some (r.moveTo (.escape cs))
    else some (r.moveTo (.value (c :: cs)))
  | .escape cs => some (r.moveTo (if c = 'u' then .numbered cs else .value (unescaped c :: cs)))
  | .numbered cs => if c = '\x7b' then some (r.moveTo (.number cs 0)) else none
  | .number cs n =>
    if c = '\x7d' then some (r.moveTo (.value (Char.ofNat n :: cs)))
    else do return r.moveTo (.number cs (16 * n + (← hexDigit? c)))

/-- Reads one character after the other. -/
def readFrom (r : TreeReader) (text : List Char) : Option TreeReader := text.foldlM step r

/-- Reads a text from the start. -/
def read (text : String) : Option TreeReader := readFrom {} text.toList

end TreeReader

/-- The tree that a text stands for. -/
def Node.ofText? (text : String) : Option Node :=
  match TreeReader.read text with
  | some ⟨.between, ⟨[n], []⟩, []⟩ => some n
  | _ => none

namespace TreeReader

variable {r s : TreeReader} {cs : List Char}

/-- A reader takes one character after the other. -/
theorem readFrom_cons {c : Char} (h : r.step c = some s) : r.readFrom (c :: cs) = s.readFrom cs := by
  rw [readFrom, List.foldlM_cons, h]
  rfl

/-- A reader takes one run of characters after the other. -/
theorem readFrom_append {before : List Char} (h : r.readFrom before = some s) :
    r.readFrom (before ++ cs) = s.readFrom cs := by
  unfold readFrom at h
  rw [readFrom, List.foldlM_append, h]
  rfl

/-- So it is with texts. -/
theorem read_append {before more : String} (h : read before = some r) :
    read (before ++ more) = r.readFrom more.toList := by
  rw [read, String.toList_append, readFrom_append h]

/-! ## Quoted values -/

/-- The digits of a number are read as that number. -/
theorem readFrom_hexDigits (r : TreeReader) (chars : List Char) (n : ℕ) :
    (r.moveTo (.number chars 0)).readFrom (Text.hexDigits n) = some (r.moveTo (.number chars n)) := by
  have hdigit : ∀ d < 16, Nat.digitChar d ≠ '\x7d' ∧ hexDigit? (Nat.digitChar d) = some d := by decide
  have hstep : ∀ m d, d < 16 →
      (r.moveTo (.number chars m)).readFrom [Nat.digitChar d] = some (r.moveTo (.number chars (16 * m + d))) := by
    intro m d hd
    obtain ⟨hbrace, hvalue⟩ := hdigit d hd
    refine (readFrom_cons (s := r.moveTo (.number chars (16 * m + d))) ?_).trans rfl
    show (if Nat.digitChar d = '\x7d' then _ else _) = _
    rw [if_neg hbrace, hvalue]
    rfl
  unfold Text.hexDigits
  induction n using Nat.strongRecOn with
  | ind n ih =>
    by_cases hsmall : n < 16
    · rw [Nat.toDigits_of_lt_base hsmall, hstep 0 n hsmall, Nat.mul_zero, Nat.zero_add]
    · have hquotient : n / 16 < n := Nat.div_lt_self (by omega) (by omega)
      rw [Nat.toDigits_of_base_le (by omega) (by omega), readFrom_append (ih _ hquotient),
        hstep _ _ (Nat.mod_lt n (by omega)), Nat.div_add_mod]

/-- A character that is written by its number is read as that character. -/
theorem readFrom_numbered (r : TreeReader) (chars : List Char) (c : Char) :
    (r.moveTo (.value chars)).readFrom (Text.numbered c) = some (r.moveTo (.value (c :: chars))) := by
  have hopening : (r.moveTo (.value chars)).readFrom ['\\', 'u', '\x7b'] = some (r.moveTo (.number chars 0)) := rfl
  have hclosing : (r.moveTo (.number chars c.toNat)).readFrom ['\x7d'] = some (r.moveTo (.value (c :: chars))) := by
    show some (r.moveTo (.value (Char.ofNat c.toNat :: chars))) = _
    rw [Char.ofNat_toNat]
  rw [Text.numbered, List.append_assoc, readFrom_append hopening, readFrom_append (readFrom_hexDigits r chars _), hclosing]

/-- A character of a value is read as it was written. -/
theorem readFrom_quotedChar (r : TreeReader) (chars : List Char) (c : Char) :
    (r.moveTo (.value chars)).readFrom (Text.quotedChar c) = some (r.moveTo (.value (c :: chars))) := by
  have hplain : c ≠ '"' → c ≠ '\\' → (r.moveTo (.value chars)).readFrom [c] = some (r.moveTo (.value (c :: chars))) := by
    intro hquote hbackslash
    refine (readFrom_cons (s := r.moveTo (.value (c :: chars))) ?_).trans rfl
    show (if c = '"' then _ else if c = '\\' then _ else _) = _
    rw [if_neg hquote, if_neg hbackslash]
    rfl
  unfold Text.quotedChar
  split
  · next h => obtain rfl | rfl := h <;> rfl
  · next h =>
    obtain ⟨hquote, hbackslash⟩ := not_or.mp h
    split
    · next h => rw [h]; rfl
    split
    · next h => rw [h]; rfl
    split
    · next h => rw [h]; rfl
    split
    · next h => rw [h]; rfl
    split
    · exact hplain hquote hbackslash
    split
    · exact readFrom_numbered r chars c
    · exact hplain hquote hbackslash

/-- A value is read as its characters, each of them written in its own way. -/
theorem readFrom_flatMap_quotedChar (r : TreeReader) (chars value : List Char) :
    (r.moveTo (.value chars)).readFrom (value.flatMap Text.quotedChar) =
      some (r.moveTo (.value (value.reverse ++ chars))) := by
  induction value generalizing chars with
  | nil => rfl
  | cons c value ih =>
    rw [List.flatMap_cons, readFrom_append (readFrom_quotedChar r chars c), ih]
    simp

/-- A value is read as it was before it was quoted. -/
theorem readFrom_quoted (hplace : r.place = .between) (value : String) :
    r.readFrom (Text.quoted value).toList = some (r.addValues [value]) := by
  have hopening : r.step '"' = some (r.moveTo (.value [])) := by
    rw [step, hplace]
    rfl
  have hclosing : (r.moveTo (.value value.toList.reverse)).readFrom ['"'] = some (r.addValues [value]) := by
    refine (readFrom_cons (s := r.addValues [value]) ?_).trans rfl
    show some (((r.moveTo _).moveTo .between).addValues [String.ofList value.toList.reverse.reverse]) = _
    rw [List.reverse_reverse, String.ofList_toList]
    cases r
    cases hplace
    rfl
  have hchars := readFrom_flatMap_quotedChar r [] value.toList
  rw [List.append_nil] at hchars
  rw [Text.quoted, String.toList_ofList, readFrom_cons hopening, readFrom_append hchars, hclosing]

/-! ## Names of types -/

/-- The names of types do not contain what ends them. -/
theorem name_unbroken (t : NodeType) : ' ' ∉ t.name.toList ∧ ')' ∉ t.name.toList := by
  cases t <;> decide

/-- Node types are found by their names. -/
theorem ofName?_name (t : NodeType) : NodeType.ofName? t.name = some t := by
  cases t <;> rfl

/-- A name is read up to a blank or parenthesis. -/
theorem readFrom_name (r : TreeReader) (letters : List Char) {name : List Char} (hblank : ' ' ∉ name)
    (hclosing : ')' ∉ name) :
    (r.moveTo (.name letters)).readFrom name = some (r.moveTo (.name (name.reverse ++ letters))) := by
  induction name generalizing letters with
  | nil => rfl
  | cons c name ih =>
    rw [List.mem_cons, not_or] at hblank hclosing
    have hstep : (r.moveTo (.name letters)).step c = some (r.moveTo (.name (c :: letters))) := by
      show (if c = ' ' ∨ c = ')' then _ else _) = _
      rw [if_neg (not_or.mpr ⟨Ne.symm hblank.1, Ne.symm hclosing.1⟩)]
      rfl
    rw [readFrom_cons hstep, ih (c :: letters) hblank.2 hclosing.2]
    simp

/-- The reader is as far as another one that is between two parts: it goes on in the same way if a part comes next, and
if the open node ends. -/
structure Awaits (r s : TreeReader) : Prop where
  between : s.place = .between
  blank : r.step ' ' = some s
  closing : r.step ')' = s.closed

/-- The blank before a part is read after a text. -/
theorem Awaits.read_blank {before : String} (hs : r.Awaits s) (h : read before = some r) :
    read (before ++ " ") = some s := by
  rw [read_append h]
  exact (readFrom_cons hs.blank).trans rfl

/-- The parenthesis that ends the open node is read after a text. -/
theorem Awaits.read_closing {before : String} {after : TreeReader} (hs : r.Awaits s) (h : read before = some r)
    (hclosed : s.closed = some after) : read (before ++ ")") = some after := by
  rw [read_append h]
  exact (readFrom_cons (hs.closing.trans hclosed)).trans rfl

/-- A reader between two nodes awaits the next one. -/
theorem awaits_of_between (h : r.place = .between) : r.Awaits r := by
  refine ⟨h, ?_, ?_⟩
  · rw [step, h]
    rfl
  · rw [step, h]
    rfl

/-- After the name of a type the parts of a node of the type are awaited. -/
theorem exists_opened {before : String} (h : read before = some r) (hplace : r.place = .between) (t : NodeType) :
    ∃ s, read (before ++ "(" ++ t.name) = some s ∧ s.Awaits (r.opened t) := by
  have hopening : r.step '(' = some (r.moveTo (.name [])) := by
    rw [step, hplace]
    rfl
  have hname : r.readFrom ("(" ++ t.name).toList = some (r.moveTo (.name t.name.toList.reverse)) := by
    have hletters := readFrom_name r [] (name_unbroken t).1 (name_unbroken t).2
    rw [List.append_nil] at hletters
    rw [String.toList_append]
    exact (readFrom_cons hopening).trans hletters
  have htype : ∀ c, c = ' ' ∨ c = ')' → (r.moveTo (.name t.name.toList.reverse)).step c = (r.opened t).start c := by
    intro c hc
    show (if c = ' ' ∨ c = ')' then _ else _) = _
    rw [if_pos hc, List.reverse_reverse, String.ofList_toList, ofName?_name]
    rfl
  refine ⟨_, ?_, rfl, htype ' ' (by simp), htype ')' (by simp)⟩
  rw [String.append_assoc, read_append h, hname]

/-! ## Nodes -/

/-- Nodes that were read are kept in their order. -/
theorem add_add (r : TreeReader) (ms ns : List Node) : (r.add ms).add ns = r.add (ms ++ ns) := by
  simp [add]

/-- So are values. -/
theorem addValues_addValues (r : TreeReader) (vs ws : List String) : (r.addValues vs).addValues ws = r.addValues (vs ++ ws) := by
  simp [addValues]

/-- A type whose nodes hold subnodes is none of the types whose nodes hold values. -/
theorem isTerminal_of_inner {t : NodeType} {ns : List Node} (h : (Node.inner t ns).Fits) : t.isTerminal = false := by
  have hcontent : (Node.inner t ns).holdsContentOf t.shape = true := h.content
  unfold NodeType.isTerminal
  revert hcontent
  cases t.shape <;> simp [Node.holdsContentOf]

/-- A node with values that fits its shape is a terminal one. -/
theorem isTerminal_of_leaf {t : NodeType} {vs : List String} (h : (Node.leaf t vs).Fits) : t.isTerminal = true := by
  have hcontent : (Node.leaf t vs).holdsContentOf t.shape = true := h.content
  unfold NodeType.isTerminal
  revert hcontent
  cases t.shape <;> simp [Node.holdsContentOf]

/-- The empty node is read by its bare name. -/
theorem readFrom_empty (hplace : r.place = .between) :
    r.readFrom NodeType.empty.name.toList = some (r.add [.empty]) := by
  obtain ⟨place, parts, outer⟩ := r
  cases hplace
  rfl

/-- A node that is closed is a part of the node around it. -/
theorem closed_opened_add {t : NodeType} (ht : t.isTerminal = false) (hplace : r.place = .between) (ns : List Node) :
    ((r.opened t).add ns).closed = some (r.add [.inner t ns]) := by
  obtain ⟨place, parts, outer⟩ := r
  cases hplace
  simp [closed, opened, add, ht]

/-- A node of values is there once its parenthesis is closed. -/
theorem closed_opened_addValues {t : NodeType} (ht : t.isTerminal = true) (hplace : r.place = .between)
    (vs : List String) : ((r.opened t).addValues vs).closed = some (r.add [.leaf t vs]) := by
  obtain ⟨place, parts, outer⟩ := r
  cases hplace
  simp [closed, opened, add, addValues, ht]

/-- Values are read after a text as parts of the open node. -/
theorem read_values {before : String} (h : read before = some r) (hs : r.Awaits s) (vs : List String) :
    ∃ r', read (vs.foldl (fun text v => text ++ " " ++ Text.quoted v) before) = some r' ∧ r'.Awaits (s.addValues vs) := by
  induction vs generalizing before r s with
  | nil => exact ⟨r, h, hs⟩
  | cons v vs ih =>
    have hvalue : read (before ++ " " ++ Text.quoted v) = some (s.addValues [v]) := by
      rw [read_append (hs.read_blank h), readFrom_quoted hs.between]
    have hbetween : (s.addValues [v]).place = .between := hs.between
    obtain ⟨r', hread, hawaits⟩ := ih hvalue (awaits_of_between hbetween)
    exact ⟨r', hread, by rwa [addValues_addValues] at hawaits⟩

mutual

/-- A node is read after a text as a part of the open node. -/
theorem read_writeAfter : ∀ (n : Node), n.Valid → ∀ {before : String} {r : TreeReader}, read before = some r →
    r.place = .between → read (n.writeAfter before) = some (r.add [n])
  | .empty, _, before, r, h, hplace => by rw [Node.writeAfter, read_append h, readFrom_empty hplace]
  | .inner t ns, hn, before, r, h, hplace => by
    -- without parts this looks like a leaf, so what the schema says of the type decides what is closed
    have hterminal := isTerminal_of_inner hn.fits
    obtain ⟨s, hopened, hawaits⟩ := exists_opened h hplace t
    obtain ⟨r', hread, hend⟩ := read_writeAllAfter ns (fun m hm => hn.mem_subnodes hm) hopened hawaits
    exact hend.read_closing hread (closed_opened_add hterminal hplace ns)
  | .leaf t vs, hn, before, r, h, hplace => by
    have hterminal := isTerminal_of_leaf hn.fits
    obtain ⟨s, hopened, hawaits⟩ := exists_opened h hplace t
    obtain ⟨r', hread, hend⟩ := read_values hopened hawaits vs
    exact hend.read_closing hread (closed_opened_addValues hterminal hplace vs)

/-- What is written of valid nodes one after the other is read back as these nodes. -/
theorem read_writeAllAfter : ∀ (ns : List Node), (∀ n ∈ ns, n.Valid) → ∀ {before : String} {r s : TreeReader},
    read before = some r → r.Awaits s → ∃ r', read (Node.writeAllAfter before ns) = some r' ∧ r'.Awaits (s.add ns)
  | [], _, before, r, s, h, hs => ⟨r, by rw [Node.writeAllAfter, h], hs⟩
  | n :: ns, hns, before, r, s, h, hs => by
    have hnode : read (n.writeAfter (before ++ " ")) = some (s.add [n]) :=
      read_writeAfter n (hns n (by simp)) (hs.read_blank h) hs.between
    have hbetween : (s.add [n]).place = .between := hs.between
    obtain ⟨r', hread, hawaits⟩ :=
      read_writeAllAfter ns (fun m hm => hns m (by simp [hm])) hnode (awaits_of_between hbetween)
    rw [add_add] at hawaits
    exact ⟨r', by rw [Node.writeAllAfter, hread], hawaits⟩

end

end TreeReader

/-- The text of a valid tree stands for that tree. -/
theorem Node.ofText?_text {n : Node} (hn : n.Valid) : ofText? n.text = some n := by
  have hread : TreeReader.read n.text = some ((({} : TreeReader)).add [n]) :=
    TreeReader.read_writeAfter n hn rfl rfl
  rw [ofText?, hread]
  rfl

/-- The text of a valid tree can be read back, so different valid trees have different texts, whatever quotes,
parentheses and text that looks like nodes their values contain. -/
theorem Node.text_unambiguous {m n : Node} (hm : m.Valid) (hn : n.Valid) :
    ofText? m.text = some m ∧ (m.text = n.text ↔ m = n) := by
  refine ⟨ofText?_text hm, fun htext => ?_, fun h => congrArg text h⟩
  have hsame : some m = some n := by rw [← ofText?_text hm, htext, ofText?_text hn]
  exact Option.some.inj hsame

/-- One identifier with quotes and a blank in it is not two identifiers. -/
theorem Node.text_unambiguous_identList :
    (leaf .identList ["a", "b"]).Valid ∧ (leaf .identList ["a\" \"b"]).Valid ∧
      ofText? (leaf .identList ["a", "b"]).text = some (leaf .identList ["a", "b"]) ∧
      (leaf .identList ["a", "b"]).text ≠ (leaf .identList ["a\" \"b"]).text := by
  have hm : (leaf .identList ["a", "b"]).Valid := valid_leaf (by decide) (by decide)
  have hn : (leaf .identList ["a\" \"b"]).Valid := valid_leaf (by decide) (by decide)
  obtain ⟨hread, hsame⟩ := text_unambiguous hm hn
  refine ⟨hm, hn, hread, fun htext => ?_⟩
  have hvalues := Node.leaf.inj (hsame.mp htext)
  simp at hvalues

end Modula
