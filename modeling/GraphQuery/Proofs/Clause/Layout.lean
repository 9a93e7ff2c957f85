import Mathlib.Logic.Function.Iterate
import GraphQuery.Clause.Layout
import GraphQuery.Proofs.Text.Line

/-! # Layout

How deep clauses stand shows in nothing but the blanks in front of their lines. The lines are such
as long as the texts that make up the clauses do not break off a line themselves. -/

namespace GraphQuery

open Text

/-! ## Texts of clauses -/

def Element.texts (element : Element) : List String :=
  element.reference.toList ++ element.label.toList ++ element.length.toList ++
    element.properties.entries.flatMap (fun entry => [entry.1, entry.2]) ++
    element.propertiesText.toList

def Link.texts (link : Link) : List String := link.relationship.texts ++ link.node.texts

def Chain.texts (chain : Chain) : List String :=
  chain.path.toList ++ chain.start.texts ++ chain.links.flatMap Link.texts

def Assignment.texts : Assignment String → List String
  | .property target value | .merge target value | .replace target value => [target, value]
  | .labels target names => target :: names

def Removal.texts : Removal String → List String
  | .property target => [target]
  | .labels target names => target :: names

def Update.texts : Update String → List String
  | .set items => items.flatMap Assignment.texts
  | .remove items => items.flatMap Removal.texts
  | .delete _ targets => targets

mutual

def Formula.texts : Formula String → List String
  | .atom text | .raw text => [text]
  | .comparison left operator right => [left, operator, right]
  | .boolean _ operands => Formula.textsOfAll operands

def Formula.textsOfAll : List (Formula String) → List String
  | [] => []
  | operand :: rest => operand.texts ++ Formula.textsOfAll rest

end

mutual

/-- The texts that are written for a clause and for those inside it. A piece of query text is none
of them, since its lines are taken apart. -/
def Clause.texts : Clause → List String
  | .use text | .skip text | .limit text | .call text | .showCommand text => [text]
  | .pattern _ chains => chains.flatMap Chain.texts
  | .merge chain => chain.texts
  | .onMerge _ items => items.flatMap Assignment.texts
  | .condition formula => formula.texts
  | .project _ _ columns | .yielding columns => columns.map Column.text
  | .orderBy keys => keys.map SortKey.operand
  | .update change => change.texts
  | .unwind list item => [list, item]
  | .forEach item list updates => item :: list :: Clause.textsOfAll updates
  | .subquery body => Clause.textsOfAll body
  | .union _ branches => Clause.textsOfBranches branches
  | .rawText _ => []

def Clause.textsOfAll : List Clause → List String
  | [] => []
  | clause :: rest => clause.texts ++ Clause.textsOfAll rest

def Clause.textsOfBranches : List (List Clause) → List String
  | [] => []
  | branch :: rest => Clause.textsOfAll branch ++ Clause.textsOfBranches rest

end

/-! ## Moving in -/

theorem lineAt_succ (depth : Nat) (text : String) :
    lineAt (depth + 1) text = indented (lineAt depth text) := by
  have hspaces : String.ofList (List.replicate (2 * (depth + 1)) ' ') =
      "  " ++ String.ofList (List.replicate (2 * depth) ' ') := by
    rw [Nat.mul_succ, Nat.add_comm, ← List.replicate_append_replicate, String.ofList_append]
    rfl
  rw [lineAt, lineAt, hspaces, String.append_assoc, trimEnd_indent]

theorem itemLines_succ (depth : Nat) (items : List String) :
    itemLines (depth + 1) items = (itemLines depth items).map indented := by
  induction items with
  | nil => rfl
  | cons item rest ih =>
      cases rest with
      | nil => simp [itemLines, lineAt_succ]
      | cons next rest => simp [itemLines, lineAt_succ, ih]

theorem itemBlock_succ (depth : Nat) (keyword : Keyword) (items : List String) :
    itemBlock (depth + 1) keyword items = (itemBlock depth keyword items).map indented := by
  unfold itemBlock
  split
  · simp [lineAt_succ]
  · simp [lineAt_succ, itemLines_succ]

theorem Update.lines_succ (depth : Nat) (change : Update String) :
    change.lines (depth + 1) = (change.lines depth).map indented := by
  cases change with
  | set items => exact itemBlock_succ depth .set _
  | remove items => simp [lines, lineAt_succ]
  | delete detach targets => simp [lines, lineAt_succ]

theorem rawLines_succ (depth : Nat) (text : String) :
    rawLines (depth + 1) text = (rawLines depth text).map indented := by
  simp [rawLines, lineAt_succ]

mutual

theorem Clause.lines_succ (depth : Nat) : ∀ clause : Clause,
    clause.lines (depth + 1) = (clause.lines depth).map indented
  | .onMerge outcome items => by simp [Clause.lines, lineAt_succ, itemBlock_succ (depth + 1)]
  | .update change => change.lines_succ depth
  | .subquery body => by
      simp [Clause.lines, lineAt_succ, Clause.linesAll_succ (depth + 1) body]
  | .union mode branches => Clause.branchLines_succ depth mode branches
  | .rawText text => rawLines_succ depth text
  | .use _ | .pattern _ _ | .merge _ | .condition _ | .project _ _ _ | .orderBy _ | .skip _
  | .limit _ | .unwind _ _ | .call _ | .showCommand _ | .yielding _ | .forEach _ _ _ => by
      simp [Clause.lines, lineAt_succ]

theorem Clause.linesAll_succ (depth : Nat) : ∀ clauses : List Clause,
    Clause.linesAll (depth + 1) clauses = (Clause.linesAll depth clauses).map indented
  | [] => rfl
  | clause :: rest => by
      rw [Clause.linesAll, Clause.linesAll, Clause.lines_succ depth clause,
        Clause.linesAll_succ depth rest, List.map_append]

theorem Clause.branchLines_succ (depth : Nat) (mode : UnionMode) :
    ∀ branches : List (List Clause),
      Clause.branchLines (depth + 1) mode branches =
        (Clause.branchLines depth mode branches).map indented
  | [] => rfl
  | [branch] => Clause.linesAll_succ depth branch
  | branch :: next :: rest => by
      rw [Clause.branchLines, Clause.branchLines, Clause.linesAll_succ depth branch,
        Clause.branchLines_succ depth mode (next :: rest), lineAt_succ, List.map_append,
        List.map_cons]

end

/-! ## Texts on one line -/

@[simp] theorem Keyword.unbroken_text (keyword : Keyword) : Unbroken keyword.text := by
  cases keyword <;> decide

@[simp] theorem Connective.unbroken_keyword (connective : Connective) :
    Unbroken connective.keyword := by
  cases connective <;> decide

/-- What is written for items has no break where the items have none. -/
theorem unbroken_items {α : Type} {items : List α} {text : α → String} {texts : α → List String}
    (hitem : ∀ item, (∀ t ∈ texts item, Unbroken t) → Unbroken (text item))
    (h : ∀ t ∈ items.flatMap texts, Unbroken t) : ∀ t ∈ items.map text, Unbroken t :=
  List.forall_mem_map.mpr fun item hmem =>
    hitem item fun t ht => h t (List.mem_flatMap.mpr ⟨item, hmem, ht⟩)

theorem unbroken_withMark {mark : Char} (hmark : Unbroken (String.singleton mark)) {text : String}
    (htext : Unbroken text) : Unbroken (withMark mark text) := by
  unfold withMark
  split
  · exact htext
  · exact unbroken_append.mpr ⟨hmark, htext⟩

namespace Element

variable {element : Element} (h : ∀ text ∈ element.texts, Unbroken text)
include h

theorem unbroken_referenceText : Unbroken element.referenceText := by
  unfold referenceText
  cases hreference : element.reference with
  | none => decide
  | some text => exact h text (by simp [texts, hreference])

theorem unbroken_labelText : Unbroken element.labelText := by
  unfold labelText
  cases hlabel : element.label with
  | none => decide
  | some text =>
      simp only
      split
      · decide
      · exact unbroken_withMark (by decide) (h text (by simp [texts, hlabel]))

theorem unbroken_lengthText : Unbroken element.lengthText := by
  unfold lengthText
  cases hlength : element.length with
  | none => decide
  | some text => exact unbroken_withMark (by decide) (h text (by simp [texts, hlength]))

theorem unbroken_entry {entry : String × String} (hentry : entry ∈ element.properties.entries) :
    Unbroken (entry.1 ++ ": " ++ entry.2) := by
  have htexts : ∀ text ∈ [entry.1, entry.2], Unbroken text := fun text htext =>
    h text (by simp only [texts, List.mem_append, List.mem_flatMap]; grind)
  simp +decide [htexts entry.1, htexts entry.2]

theorem unbroken_propertiesText? {text : String} (htext : element.propertiesText? = some text) :
    Unbroken text := by
  unfold propertiesText? at htext
  split at htext
  · next given hgiven =>
      cases htext
      exact h text (by simp [texts, hgiven])
  · split at htext
    · cases htext
    · cases htext
      have hentries := unbroken_joinWith (show Unbroken ", " by decide)
        (List.forall_mem_map.mpr fun entry => unbroken_entry h)
      simp +decide [hentries]

theorem unbroken_withProperties {head : String} (hhead : Unbroken head) :
    Unbroken (element.withProperties head) := by
  unfold withProperties
  cases htext : element.propertiesText? with
  | none => exact hhead
  | some text =>
      have hproperties := unbroken_propertiesText? h htext
      simp only
      split
      · exact hproperties
      · simp +decide [hhead, hproperties]

theorem unbroken_nodeText : Unbroken element.nodeText := by
  have hhead : Unbroken (element.referenceText ++ element.labelText) :=
    unbroken_append.mpr ⟨unbroken_referenceText h, unbroken_labelText h⟩
  simp +decide [nodeText, unbroken_withProperties h hhead]

theorem unbroken_relationshipText (direction : Direction) :
    Unbroken (element.relationshipText direction) := by
  have hhead : Unbroken (element.referenceText ++ element.labelText ++ element.lengthText) := by
    simp [unbroken_referenceText h, unbroken_labelText h, unbroken_lengthText h]
  have hbody := unbroken_withProperties h hhead
  unfold relationshipText
  cases direction <;> simp only <;> split <;> simp +decide [hbody]

end Element

theorem Link.unbroken_text {link : Link} (h : ∀ text ∈ link.texts, Unbroken text) :
    Unbroken link.text := by
  obtain ⟨hrelationship, hnode⟩ := List.forall_mem_append.mp h
  exact unbroken_append.mpr ⟨Element.unbroken_relationshipText hrelationship link.direction,
    Element.unbroken_nodeText hnode⟩

theorem Chain.unbroken_text {chain : Chain} (h : ∀ text ∈ chain.texts, Unbroken text) :
    Unbroken chain.text := by
  obtain ⟨hstart, hlinks⟩ := List.forall_mem_append.mp h
  obtain ⟨hpath, hstart⟩ := List.forall_mem_append.mp hstart
  have hwalk : Unbroken (chain.start.nodeText ++ Text.concat (chain.links.map Link.text)) := by
    refine unbroken_append.mpr ⟨Element.unbroken_nodeText hstart, unbroken_concat ?_⟩
    exact unbroken_items (fun _ => Link.unbroken_text) hlinks
  unfold Chain.text
  cases hgiven : chain.path with
  | none => exact hwalk
  | some path =>
      have hpath : Unbroken path := hpath path (by simp [hgiven])
      simpa +decide [hpath] using hwalk

theorem Assignment.unbroken_text {item : Assignment String}
    (h : ∀ text ∈ item.texts, Unbroken text) : Unbroken item.text := by
  cases item with
  | labels target names =>
      obtain ⟨htarget, hnames⟩ := List.forall_mem_cons.mp h
      simp +decide [text, htarget, unbroken_joinWith (show Unbroken ":" by decide) hnames]
  | _ => simp_all +decide [text, texts]

theorem Removal.unbroken_text {item : Removal String}
    (h : ∀ text ∈ item.texts, Unbroken text) : Unbroken item.text := by
  cases item with
  | labels target names =>
      obtain ⟨htarget, hnames⟩ := List.forall_mem_cons.mp h
      simp +decide [text, htarget, unbroken_joinWith (show Unbroken ":" by decide) hnames]
  | property target => exact h target List.mem_cons_self

theorem SortKey.unbroken_text {key : SortKey String} (h : Unbroken key.operand) :
    Unbroken key.text := by
  unfold text
  split
  · simp +decide [h]
  · exact h

theorem unbroken_columnsText (distinct : Bool) {columns : List Column}
    (h : ∀ text ∈ columns.map Column.text, Unbroken text) :
    Unbroken (columnsText distinct columns) := by
  have htexts := unbroken_joinWith (show Unbroken ", " by decide) h
  unfold columnsText
  cases distinct with
  | false => exact htexts
  | true => simpa +decide using htexts

mutual

theorem Formula.unbroken_print : ∀ formula : Formula String,
    (∀ text ∈ formula.texts, Unbroken text) → Unbroken formula.print
  | .atom text, h | .raw text, h => h text List.mem_cons_self
  | .comparison left operator right, h => by
      simp_all +decide [Formula.print, Formula.texts]
  | .boolean connective operands, h => by
      have hoperands := Formula.unbroken_printOperands connective operands h
      unfold Formula.print
      split
      · simpa +decide using unbroken_concat hoperands
      · exact unbroken_joinWith (by simp +decide) hoperands

theorem Formula.unbroken_printOperands (parent : Connective) : ∀ operands : List (Formula String),
    (∀ text ∈ Formula.textsOfAll operands, Unbroken text) →
      ∀ text ∈ Formula.printOperands parent operands, Unbroken text
  | [], _ => List.forall_mem_nil _
  | operand :: rest, h => by
      obtain ⟨hoperand, hrest⟩ := List.forall_mem_append.mp h
      have hprint := Formula.unbroken_print operand hoperand
      refine List.forall_mem_cons.mpr ⟨?_, Formula.unbroken_printOperands parent rest hrest⟩
      split
      · simpa +decide using hprint
      · exact hprint

end

/-! ## Lines as they are written -/

/-- The line ends in no blank and goes on on no other line. -/
structure IsLine (line : String) : Prop where
  ending : ∀ c ∈ line.toList.getLast?, isBlank c = false
  unbroken : Unbroken line

theorem isLine_lineAt (depth : Nat) {text : String} (h : Unbroken text) :
    IsLine (lineAt depth text) where
  ending _ hc := trimEnd_getLast? hc
  unbroken := by
    refine Unbroken.trimEnd (unbroken_append.mpr ⟨?_, h⟩)
    simp [Unbroken, List.mem_replicate]

theorem isLine_headed (depth : Nat) (keyword : Keyword) {text : String} (h : Unbroken text) :
    IsLine (lineAt depth (keyword.text ++ " " ++ text)) :=
  isLine_lineAt depth (by simp +decide [h])

theorem isLine_itemLines (depth : Nat) {items : List String} (h : ∀ item ∈ items, Unbroken item) :
    ∀ line ∈ itemLines depth items, IsLine line := by
  induction items with
  | nil => exact List.forall_mem_nil _
  | cons item rest ih =>
      obtain ⟨hitem, hrest⟩ := List.forall_mem_cons.mp h
      cases rest with
      | nil => exact List.forall_mem_singleton.mpr (isLine_lineAt depth hitem)
      | cons next rest =>
          have hcomma : Unbroken (item ++ ",") := by simp +decide [hitem]
          exact List.forall_mem_cons.mpr ⟨isLine_lineAt depth hcomma, ih hrest⟩

theorem isLine_itemBlock (depth : Nat) (keyword : Keyword) {items : List String}
    (h : ∀ item ∈ items, Unbroken item) :
    ∀ line ∈ itemBlock depth keyword items, IsLine line := by
  unfold itemBlock
  split
  · next item =>
      have hitem : Unbroken item := h item List.mem_cons_self
      exact List.forall_mem_singleton.mpr (isLine_headed depth keyword hitem)
  · exact List.forall_mem_cons.mpr
      ⟨isLine_lineAt depth keyword.unbroken_text, isLine_itemLines (depth + 1) h⟩

theorem Update.isLine_lines (depth : Nat) {change : Update String}
    (h : ∀ text ∈ change.texts, Unbroken text) : ∀ line ∈ change.lines depth, IsLine line := by
  have hcomma : Unbroken ", " := by decide
  cases change with
  | set items =>
      have hitems := unbroken_items (fun _ => Assignment.unbroken_text) h
      exact isLine_itemBlock depth .set hitems
  | remove items =>
      have hitems := unbroken_items (fun _ => Removal.unbroken_text) h
      exact List.forall_mem_singleton.mpr (isLine_headed depth _ (unbroken_joinWith hcomma hitems))
  | delete detach targets =>
      exact List.forall_mem_singleton.mpr (isLine_headed depth _ (unbroken_joinWith hcomma h))

theorem isLine_rawLines (depth : Nat) (text : String) :
    ∀ line ∈ rawLines depth text, IsLine line :=
  List.forall_mem_map.mpr fun _ hline =>
    isLine_lineAt depth (unbroken_of_mem_lines hline).trim

theorem unbroken_onOneLine {lines : List String} (h : ∀ line ∈ lines, IsLine line) :
    Unbroken (onOneLine lines) :=
  unbroken_joinWith (by decide) <|
    List.forall_mem_map.mpr fun line hline => (h line hline).unbroken.trim

mutual

theorem Clause.isLine_lines (depth : Nat) : ∀ clause : Clause,
    (∀ text ∈ clause.texts, Unbroken text) → ∀ line ∈ clause.lines depth, IsLine line
  | .use text, h | .skip text, h | .limit text, h | .call text, h | .showCommand text, h =>
      List.forall_mem_singleton.mpr (isLine_headed depth _ (h text List.mem_cons_self))
  | .pattern verb chains, h => by
      have hchains := unbroken_items (fun _ => Chain.unbroken_text) h
      exact List.forall_mem_singleton.mpr
        (isLine_headed depth _ (unbroken_joinWith (by decide) hchains))
  | .merge chain, h =>
      List.forall_mem_singleton.mpr (isLine_headed depth _ (Chain.unbroken_text h))
  | .onMerge outcome items, h =>
      List.forall_mem_cons.mpr ⟨isLine_lineAt depth outcome.keyword.unbroken_text,
        isLine_itemBlock (depth + 1) .set (unbroken_items (fun _ => Assignment.unbroken_text) h)⟩
  | .condition formula, h =>
      List.forall_mem_singleton.mpr (isLine_headed depth _ (Formula.unbroken_print formula h))
  | .project verb distinct columns, h =>
      List.forall_mem_singleton.mpr (isLine_headed depth _ (unbroken_columnsText distinct h))
  | .yielding columns, h =>
      List.forall_mem_singleton.mpr (isLine_headed depth _ (unbroken_columnsText false h))
  | .orderBy keys, h => by
      have hkeys : ∀ text ∈ keys.map SortKey.text, Unbroken text :=
        List.forall_mem_map.mpr fun key hkey =>
          SortKey.unbroken_text (h _ (List.mem_map_of_mem hkey))
      exact List.forall_mem_singleton.mpr
        (isLine_headed depth _ (unbroken_joinWith (by decide) hkeys))
  | .update change, h => change.isLine_lines depth h
  | .unwind list item, h => by
      have hlist : Unbroken list := h list (by simp [Clause.texts])
      have hitem : Unbroken item := h item (by simp [Clause.texts])
      exact List.forall_mem_singleton.mpr (isLine_lineAt depth (by simp +decide [hlist, hitem]))
  | .forEach item list updates, h => by
      obtain ⟨hitem, h⟩ := List.forall_mem_cons.mp h
      obtain ⟨hlist, hupdates⟩ := List.forall_mem_cons.mp h
      have hinline := unbroken_joinWith (show Unbroken " " by decide)
        (Clause.unbroken_inlineAll updates hupdates)
      exact List.forall_mem_singleton.mpr
        (isLine_lineAt depth (by simp +decide [hitem, hlist, hinline]))
  | .subquery body, h => by
      have hbody := Clause.isLine_linesAll (depth + 1) body h
      refine List.forall_mem_cons.mpr ⟨isLine_lineAt depth (by decide), ?_⟩
      exact List.forall_mem_append.mpr
        ⟨hbody, List.forall_mem_singleton.mpr (isLine_lineAt depth (by decide))⟩
  | .union mode branches, h => Clause.isLine_branchLines depth mode branches h
  | .rawText text, _ => isLine_rawLines depth text

theorem Clause.isLine_linesAll (depth : Nat) : ∀ clauses : List Clause,
    (∀ text ∈ Clause.textsOfAll clauses, Unbroken text) →
      ∀ line ∈ Clause.linesAll depth clauses, IsLine line
  | [], _ => List.forall_mem_nil _
  | clause :: rest, h => by
      obtain ⟨hclause, hrest⟩ := List.forall_mem_append.mp h
      exact List.forall_mem_append.mpr
        ⟨Clause.isLine_lines depth clause hclause, Clause.isLine_linesAll depth rest hrest⟩

theorem Clause.unbroken_inlineAll : ∀ clauses : List Clause,
    (∀ text ∈ Clause.textsOfAll clauses, Unbroken text) →
      ∀ text ∈ Clause.inlineAll clauses, Unbroken text
  | [], _ => List.forall_mem_nil _
  | clause :: rest, h => by
      obtain ⟨hclause, hrest⟩ := List.forall_mem_append.mp h
      exact List.forall_mem_cons.mpr
        ⟨unbroken_onOneLine (Clause.isLine_lines 0 clause hclause),
          Clause.unbroken_inlineAll rest hrest⟩

theorem Clause.isLine_branchLines (depth : Nat) (mode : UnionMode) :
    ∀ branches : List (List Clause),
      (∀ text ∈ Clause.textsOfBranches branches, Unbroken text) →
        ∀ line ∈ Clause.branchLines depth mode branches, IsLine line
  | [], _ => List.forall_mem_nil _
  | [branch], h => Clause.isLine_linesAll depth branch (List.forall_mem_append.mp h).1
  | branch :: next :: rest, h => by
      obtain ⟨hbranch, hrest⟩ := List.forall_mem_append.mp h
      refine List.forall_mem_append.mpr ⟨Clause.isLine_linesAll depth branch hbranch, ?_⟩
      exact List.forall_mem_cons.mpr ⟨isLine_lineAt depth mode.keyword.unbroken_text,
        Clause.isLine_branchLines depth mode (next :: rest) hrest⟩

end

/-! ## Layout at any depth -/

theorem Clause.linesAll_append (depth : Nat) (clauses later : List Clause) :
    Clause.linesAll depth (clauses ++ later) =
      Clause.linesAll depth clauses ++ Clause.linesAll depth later := by
  induction clauses with
  | nil => rfl
  | cons clause rest ih =>
      rw [List.cons_append, Clause.linesAll, Clause.linesAll, ih, List.append_assoc]

theorem lineAt_eq_iterate (depth : Nat) (text : String) :
    lineAt depth text = indented^[depth] (trimEnd text) := by
  induction depth with
  | zero => simp [lineAt]
  | succ depth ih => rw [lineAt_succ, ih, Function.iterate_succ_apply']

/-- One level further in, clauses are written on the same lines, each that is not empty moved by
two spaces. So are those of a block between its braces. If no text of the clauses has a line
break then no line has one, and none ends in a blank. -/
theorem Clause.layout_shifts (clauses : List Clause) (depth : Nat) :
    Clause.linesAll (depth + 1) clauses = (Clause.linesAll depth clauses).map indented ∧
      (Clause.subquery clauses).lines depth =
        indented^[depth] "CALL \x7b" ::
          ((Clause.linesAll depth clauses).map indented ++ [indented^[depth] "\x7d"]) ∧
      ((∀ text ∈ Clause.textsOfAll clauses, Unbroken text) →
        ∀ line ∈ Clause.linesAll depth clauses, IsLine line) := by
  have hopening : trimEnd "CALL \x7b" = "CALL \x7b" := by decide
  have hclosing : trimEnd "\x7d" = "\x7d" := by decide
  refine ⟨Clause.linesAll_succ depth clauses, ?_, Clause.isLine_linesAll depth clauses⟩
  rw [Clause.lines, Clause.linesAll_succ, lineAt_eq_iterate, lineAt_eq_iterate, hopening,
    hclosing]

/-- Items below their keyword, a block in a branch, and query text with a blank line in it. -/
def layeredClauses : List Clause :=
  [.merge { start := { reference := some "n", label := some "Person" } },
    .onMerge .created [.property "n.age" "1", .labels "n" ["Old", "New"]],
    .union .all
      [[.rawText "MATCH (m)\n\n  RETURN m  "],
        [.subquery [.forEach "x" "xs" [.rawText "SET\nx.age = 1", .update (.delete true ["x"])]]]]]

theorem Clause.layout_shifts_layeredClauses :
    Clause.linesAll 2 layeredClauses = (Clause.linesAll 1 layeredClauses).map indented ∧
      (Clause.subquery layeredClauses).lines 1 =
        indented "CALL \x7b" ::
          ((Clause.linesAll 1 layeredClauses).map indented ++ [indented "\x7d"]) ∧
      (∀ text ∈ Clause.textsOfAll layeredClauses, Unbroken text) ∧
      ∀ line ∈ Clause.linesAll 1 layeredClauses, IsLine line := by
  have hunbroken : ∀ text ∈ Clause.textsOfAll layeredClauses, Unbroken text := by decide
  obtain ⟨hlines, hblock, hwritten⟩ := Clause.layout_shifts layeredClauses 1
  exact ⟨hlines, hblock, hunbroken, hwritten hunbroken⟩

end GraphQuery
