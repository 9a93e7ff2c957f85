import GraphQuery.Proofs.Clause.Layout
import GraphQuery.Proofs.Clause.RawText

/-! # Updates on one line

In a loop each update stands on one line, which is that of the loop. It reads as the lines on which
the update is written elsewhere, each break with the indentation behind it made a single space. -/

namespace GraphQuery

namespace Text

/-! ## Compact texts -/

/-- The text stands on one line, and neither begins nor ends in a blank. -/
structure Compact (text : String) : Prop where
  ne_empty : text ≠ ""
  trimmed : trim text = text
  unbroken : Unbroken text

instance (text : String) : Decidable (Compact text) :=
  decidable_of_iff (text ≠ "" ∧ trim text = text ∧ Unbroken text)
    ⟨fun ⟨hne, htrim, hunbroken⟩ => ⟨hne, htrim, hunbroken⟩,
      fun h => ⟨h.ne_empty, h.trimmed, h.unbroken⟩⟩

/-- The text behind the indentation of a depth. -/
def moved (depth : Nat) (text : String) : String := String.ofList (indentation depth) ++ text

theorem unbroken_moved {depth : Nat} {text : String} (h : Unbroken text) :
    Unbroken (moved depth text) := by
  refine unbroken_append.mpr ⟨?_, h⟩
  simp [Unbroken, indentation, List.mem_replicate]

namespace Compact

variable {text front back between : String}

theorem toList_ne_nil (h : Compact text) : text.toList ≠ [] :=
  fun hnil => h.ne_empty (String.toList_eq_nil_iff.mp hnil)

theorem dropBlanks_eq (h : Compact text) : dropBlanks text.toList = text.toList := by
  have hhead := trim_head? text
  rw [h.trimmed] at hhead
  cases hchars : text.toList with
  | nil => rfl
  | cons first rest =>
      have hfirst : isBlank first = false := hhead first (by rw [hchars]; rfl)
      exact List.dropWhile_cons_of_neg (by simp [hfirst])

theorem dropBlanksEnd_eq (h : Compact text) : dropBlanksEnd text.toList = text.toList := by
  have htrimmed : dropBlanksEnd (dropBlanks text.toList) = text.toList := by
    simpa [trim, trimEnd, trimStart] using congrArg String.toList h.trimmed
  rwa [h.dropBlanks_eq] at htrimmed

/-- Nothing in front of the text is lost at the end of a line. -/
theorem trimEnd_append (h : Compact text) (front : String) :
    trimEnd (front ++ text) = front ++ text := by
  rw [trimEnd, String.toList_append, dropBlanksEnd_append, h.dropBlanksEnd_eq,
    if_neg h.toList_ne_nil, ← String.toList_append, String.ofList_toList]

theorem trimStart_append (h : Compact text) (back : String) :
    trimStart (text ++ back) = text ++ back := by
  have hkept : text.toList.dropWhile isBlank = text.toList := h.dropBlanks_eq
  rw [trimStart, dropBlanks, String.toList_append, List.dropWhile_append, hkept,
    if_neg (by simpa using h.ne_empty), ← String.toList_append, String.ofList_toList]

theorem lineAt_eq (h : Compact text) (depth : Nat) : lineAt depth text = moved depth text :=
  h.trimEnd_append _

theorem trim_moved (h : Compact text) (depth : Nat) : trim (moved depth text) = text := by
  have hblanks : ((indentation depth) ++ text.toList).dropWhile isBlank =
      text.toList.dropWhile isBlank :=
    List.dropWhile_append_of_pos fun c hc => blanks_indentation depth c hc
  have hstart : trimStart (moved depth text) = trimStart text := by
    rw [trimStart, trimStart, moved, dropBlanks, dropBlanks, String.toList_append,
      String.toList_ofList, hblanks]
  rw [trim, hstart]
  exact h.trimmed

/-- What stands between two compact texts is kept. -/
theorem append (hfront : Compact front) (hbetween : Unbroken between) (hback : Compact back) :
    Compact (front ++ between ++ back) where
  ne_empty h := hfront.ne_empty
    (String.append_eq_empty_iff.mp (String.append_eq_empty_iff.mp h).1).1
  trimmed := by
    rw [trim, String.append_assoc, hfront.trimStart_append, ← String.append_assoc,
      hback.trimEnd_append]
  unbroken := by simp [hfront.unbroken, hbetween, hback.unbroken]

theorem joinWith {separator : String} (hseparator : Unbroken separator) {texts : List String}
    (hne : texts ≠ []) (h : ∀ text ∈ texts, Compact text) :
    Compact (joinWith separator texts) := by
  induction texts with
  | nil => exact absurd rfl hne
  | cons text rest ih =>
      obtain ⟨htext, hrest⟩ := List.forall_mem_cons.mp h
      cases rest with
      | nil => exact htext
      | cons next rest => exact htext.append hseparator (ih (List.cons_ne_nil _ _) hrest)

end Compact

/-! ## Unwrapped texts -/

/-- The characters on one line, behind a break or not. -/
def unwrapFrom (broken : Bool) : List Char → List Char
  | [] => []
  | c :: rest =>
      if c = '\n' then ' ' :: unwrapFrom true rest
      else if broken && c = ' ' then unwrapFrom true rest
      else c :: unwrapFrom false rest

/-- The text on one line: in place of each break, with the spaces behind it, stands one space. -/
def unwrap (text : String) : String := String.ofList (unwrapFrom false text.toList)

theorem unwrapFrom_append {cs : List Char} (h : '\n' ∉ cs) (rest : List Char) :
    unwrapFrom false (cs ++ rest) = cs ++ unwrapFrom false rest := by
  induction cs with
  | nil => rfl
  | cons c cs ih =>
      rw [List.mem_cons, not_or] at h
      simp [unwrapFrom, Ne.symm h.1, ih h.2]

theorem unwrapFrom_spaces (count : Nat) (rest : List Char) :
    unwrapFrom true (List.replicate count ' ' ++ rest) = unwrapFrom true rest := by
  induction count with
  | zero => rfl
  | succ count ih => simp [List.replicate_succ, unwrapFrom, ih]

/-- A compact text does not begin with spaces that could be taken for indentation. -/
theorem Compact.unwrapFrom_eq {text : String} (h : Compact text) (rest : List Char) :
    unwrapFrom true (text.toList ++ rest) = unwrapFrom false (text.toList ++ rest) := by
  have hhead := trim_head? text
  rw [h.trimmed] at hhead
  obtain ⟨c, cs, hchars⟩ := List.exists_cons_of_ne_nil h.toList_ne_nil
  have hsolid : isBlank c = false := hhead c (by rw [hchars]; rfl)
  have hspace : c ≠ ' ' := by
    rintro rfl
    exact absurd hsolid (by decide)
  simp [hchars, unwrapFrom, hspace]

theorem joinWith_append_cons (separator front text : String) (rest : List String) :
    joinWith separator ((front ++ text) :: rest) = front ++ joinWith separator (text :: rest) := by
  cases rest with
  | nil => rfl
  | cons next rest => simp [joinWith_cons_cons, String.append_assoc]

/-- Lines that are moved in alike are unwrapped to their texts. -/
theorem unwrapFrom_joinWith {first : String} (hfirst : Unbroken first) {rest : List String}
    (hrest : ∀ text ∈ rest, Compact text) (depth : Nat) :
    unwrapFrom false (joinWith "\n" (first :: rest.map (moved depth))).toList =
      (joinWith " " (first :: rest)).toList := by
  induction rest generalizing first with
  | nil => simpa [unwrapFrom] using unwrapFrom_append hfirst []
  | cons next rest ih =>
      obtain ⟨hnext, hrest⟩ := List.forall_mem_cons.mp hrest
      have hlater := ih hnext.unbroken hrest
      obtain ⟨others, hothers⟩ : ∃ others,
          (joinWith "\n" (next :: rest.map (moved depth))).toList = next.toList ++ others :=
        ⟨_, toList_joinWith next _⟩
      have hbehind : unwrapFrom true (joinWith "\n" ((next :: rest).map (moved depth))).toList =
          unwrapFrom false (joinWith "\n" (next :: rest.map (moved depth))).toList := by
        rw [List.map_cons, moved, joinWith_append_cons, String.toList_append,
          String.toList_ofList, indentation, unwrapFrom_spaces, hothers, hnext.unwrapFrom_eq]
      have hbreak :
          unwrapFrom false (joinWith "\n" (first :: (next :: rest).map (moved depth))).toList =
            first.toList ++ ' ' ::
              unwrapFrom true (joinWith "\n" ((next :: rest).map (moved depth))).toList := by
        rw [List.map_cons, joinWith_cons_cons, String.toList_append, String.toList_append,
          List.append_assoc, unwrapFrom_append hfirst]
        rfl
      rw [hbreak, hbehind, hlater, joinWith_cons_cons, String.toList_append, String.toList_append,
        List.append_assoc]
      rfl

end Text

open Text

/-! ## Laid out texts -/

/-- The lines at a depth are the pieces of the text, the first at that depth and the others below
it. -/
def LaidOut (text : String) (lines : Nat → List String) : Prop :=
  ∃ first rest, Compact first ∧ (∀ piece ∈ rest, Compact piece) ∧
    joinWith " " (first :: rest) = text ∧
    ∀ depth, lines depth = moved depth first :: rest.map (moved (depth + 1))

namespace LaidOut

variable {text : String} {lines : Nat → List String}

theorem single (h : Compact text) : LaidOut text fun depth => [lineAt depth text] :=
  ⟨text, [], h, List.forall_mem_nil _, rfl, fun depth => congrArg ([·]) (h.lineAt_eq depth)⟩

theorem compact (h : LaidOut text lines) : Compact text := by
  obtain ⟨first, rest, hfirst, hrest, rfl, -⟩ := h
  exact .joinWith (by decide) (List.cons_ne_nil _ _) (List.forall_mem_cons.mpr ⟨hfirst, hrest⟩)

theorem onOneLine_eq (h : LaidOut text lines) (depth : Nat) : onOneLine (lines depth) = text := by
  obtain ⟨first, rest, hfirst, hrest, rfl, hlines⟩ := h
  have hpieces : ∀ piece ∈ rest, (trim ∘ moved (depth + 1)) piece = id piece :=
    fun piece hpiece => (hrest piece hpiece).trim_moved (depth + 1)
  have htrimmed : (rest.map (moved (depth + 1))).map trim = rest := by
    rw [List.map_map, List.map_congr_left hpieces, List.map_id]
  rw [onOneLine, hlines, List.map_cons, hfirst.trim_moved, htrimmed]

theorem unwrap_eq (h : LaidOut text lines) (depth : Nat) :
    unwrap (joinWith "\n" (lines depth)) = moved depth text := by
  obtain ⟨first, rest, hfirst, hrest, rfl, hlines⟩ := h
  have hunbroken : Unbroken (moved depth first) := unbroken_moved hfirst.unbroken
  have hunwrapped := unwrapFrom_joinWith hunbroken hrest (depth + 1)
  rw [unwrap, hlines, hunwrapped, String.ofList_toList, moved, joinWith_append_cons]
  rfl

end LaidOut

/-! ## Items below their keyword -/

/-- A comma behind each item but the last. -/
def withCommas : List String → List String
  | [] => []
  | [item] => [item]
  | item :: rest => (item ++ ",") :: withCommas rest

theorem withCommas_cons_cons (item next : String) (rest : List String) :
    withCommas (item :: next :: rest) = (item ++ ",") :: withCommas (next :: rest) := rfl

theorem itemLines_eq (depth : Nat) (items : List String) :
    itemLines depth items = (withCommas items).map (lineAt depth) := by
  induction items with
  | nil => rfl
  | cons item rest ih =>
      cases rest with
      | nil => rfl
      | cons next rest =>
          rw [withCommas_cons_cons, List.map_cons, ← ih]
          rfl

theorem joinWith_withCommas (items : List String) :
    joinWith " " (withCommas items) = joinWith ", " items := by
  induction items with
  | nil => rfl
  | cons item rest ih =>
      cases rest with
      | nil => rfl
      | cons next rest =>
          obtain ⟨first, others, hcommas⟩ : ∃ first others,
              withCommas (next :: rest) = first :: others := by
            cases rest <;> exact ⟨_, _, rfl⟩
          rw [withCommas_cons_cons, joinWith_cons_cons, ← ih, hcommas, joinWith_cons_cons]
          simp [String.append_assoc]

theorem compact_withCommas {items : List String} (h : ∀ item ∈ items, Compact item) :
    ∀ piece ∈ withCommas items, Compact piece := by
  induction items with
  | nil => exact List.forall_mem_nil _
  | cons item rest ih =>
      obtain ⟨hitem, hrest⟩ := List.forall_mem_cons.mp h
      cases rest with
      | nil => exact List.forall_mem_singleton.mpr hitem
      | cons next rest =>
          have hcomma : Compact (item ++ "" ++ ",") := hitem.append (by decide) (by decide)
          rw [String.append_empty] at hcomma
          exact List.forall_mem_cons.mpr ⟨hcomma, ih hrest⟩

theorem Keyword.compact_text (keyword : Keyword) : Compact keyword.text := by
  cases keyword <;> decide

section

variable (keyword : Keyword) {items : List String}

theorem laidOut_headed (hne : items ≠ []) (h : ∀ item ∈ items, Compact item) :
    LaidOut (keyword.text ++ " " ++ joinWith ", " items) fun depth =>
      [lineAt depth (keyword.text ++ " " ++ joinWith ", " items)] :=
  .single (keyword.compact_text.append (by decide) (.joinWith (by decide) hne h))

theorem laidOut_itemBlock (hne : items ≠ []) (h : ∀ item ∈ items, Compact item) :
    LaidOut (keyword.text ++ " " ++ joinWith ", " items) fun depth =>
      itemBlock depth keyword items := by
  match items with
  | [] => exact absurd rfl hne
  | [item] => exact laidOut_headed keyword hne h
  | item :: next :: rest =>
      have hpieces := compact_withCommas h
      refine ⟨keyword.text, withCommas (item :: next :: rest), keyword.compact_text, hpieces, ?_,
        fun depth => ?_⟩
      · rw [← joinWith_withCommas, withCommas_cons_cons, joinWith_cons_cons]
      · have hlines : (withCommas (item :: next :: rest)).map (lineAt (depth + 1)) =
            (withCommas (item :: next :: rest)).map (moved (depth + 1)) :=
          List.map_congr_left fun piece hpiece => (hpieces piece hpiece).lineAt_eq (depth + 1)
        rw [← hlines, ← itemLines_eq, ← keyword.compact_text.lineAt_eq]
        rfl

end

namespace Update

/-- The items of an update as they are written. -/
def itemTexts : Update String → List String
  | .set items => items.map Assignment.text
  | .remove items => items.map Removal.text
  | .delete _ targets => targets

/-- The keyword of the update and its items one after another. -/
def inline (change : Update String) : String :=
  change.keyword.text ++ " " ++ joinWith ", " change.itemTexts

theorem laidOut {change : Update String} (hsome : change.isEmpty = false)
    (hitems : ∀ text ∈ change.itemTexts, Compact text) :
    LaidOut change.inline fun depth => change.lines depth := by
  have hne : change.itemTexts ≠ [] := by
    cases change <;> simpa [itemTexts, isEmpty] using hsome
  cases change with
  | set items => exact laidOut_itemBlock .set hne hitems
  | remove items => exact laidOut_headed .remove hne hitems
  | delete detach targets =>
      cases detach with
      | false => exact laidOut_headed .delete hne hitems
      | true => exact laidOut_headed .detachDelete hne hitems

end Update

/-! ## Loops -/

/-- A loop stands on one line, with its updates one after another, each of them its keyword and its
items with commas between them. So is the update itself once the lines it is written on elsewhere
are unwrapped. -/
theorem Clause.loop_on_one_line {item list : String} (hitem : Unbroken item)
    (hlist : Unbroken list) {changes : List (Update String)}
    (hsome : ∀ change ∈ changes, change.isEmpty = false)
    (hitems : ∀ change ∈ changes, ∀ text ∈ change.itemTexts, Compact text) (depth : Nat) :
    (Clause.forEach item list (changes.map Clause.update)).lines depth =
        [moved depth ("FOREACH (" ++ item ++ " IN " ++ list ++ " | " ++
          joinWith " " (changes.map Update.inline) ++ ")")] ∧
      (∀ line ∈ (Clause.forEach item list (changes.map Clause.update)).lines depth,
        Unbroken line) ∧
      ∀ change ∈ changes, unwrap (joinWith "\n" ((Clause.update change).lines depth)) =
        moved depth change.inline := by
  have hlaid : ∀ change ∈ changes, LaidOut change.inline fun depth => change.lines depth :=
    fun change hchange => Update.laidOut (hsome change hchange) (hitems change hchange)
  have hinline : Clause.inlineAll (changes.map Clause.update) = changes.map Update.inline := by
    clear hsome hitems
    induction changes with
    | nil => rfl
    | cons change rest ih =>
        obtain ⟨hchange, hrest⟩ := List.forall_mem_cons.mp hlaid
        rw [List.map_cons, List.map_cons, Clause.inlineAll, ih hrest]
        exact congrArg (· :: _) (hchange.onOneLine_eq 0)
  have hupdates : Unbroken (joinWith " " (changes.map Update.inline)) :=
    unbroken_joinWith (by decide) (List.forall_mem_map.mpr fun change hchange =>
      (hlaid change hchange).compact.unbroken)
  have hline : (Clause.forEach item list (changes.map Clause.update)).lines depth =
      [moved depth ("FOREACH (" ++ item ++ " IN " ++ list ++ " | " ++
        joinWith " " (changes.map Update.inline) ++ ")")] := by
    have hclosed : Compact ")" := by decide
    rw [Clause.lines, hinline, lineAt, ← String.append_assoc, hclosed.trimEnd_append,
      String.append_assoc]
    rfl
  refine ⟨hline, ?_, fun change hchange => (hlaid change hchange).unwrap_eq depth⟩
  rw [hline]
  exact List.forall_mem_singleton.mpr (unbroken_moved (by simp +decide [hitem, hlist, hupdates]))

/-- Items of every kind, and more than one of most. -/
def manyChanges : List (Update String) :=
  [.set [.property "x.age" "1", .labels "x" ["Old", "New"], .merge "x" "$extra"],
    .remove [.property "x.name", .labels "x" ["Old"]], .delete true ["y", "z"], .delete false ["r"],
    .set [.replace "x" "$all"]]

theorem Clause.loop_on_one_line_manyChanges :
    (Clause.forEach "x" "nodes(p)" (manyChanges.map Clause.update)).lines 2 =
        ["    FOREACH (x IN nodes(p) | SET x.age = 1, x:Old:New, x += $extra " ++
          "REMOVE x.name, x:Old DETACH DELETE y, z DELETE r SET x = $all)"] ∧
      (∀ change ∈ manyChanges, change.isEmpty = false ∧
        ∀ text ∈ change.itemTexts, Compact text) ∧
      unwrap "    SET\n      x.age = 1,\n      x:Old:New,\n      x += $extra" =
        "    SET x.age = 1, x:Old:New, x += $extra" := by
  have hsome : ∀ change ∈ manyChanges, change.isEmpty = false := by decide
  have hitems : ∀ change ∈ manyChanges, ∀ text ∈ change.itemTexts, Compact text := by decide
  obtain ⟨hlines, -, hunwrapped⟩ := Clause.loop_on_one_line (show Unbroken "x" by decide)
    (show Unbroken "nodes(p)" by decide) hsome hitems 2
  refine ⟨hlines.trans rfl, fun change hchange => ⟨hsome change hchange,
    hitems change hchange⟩, ?_⟩
  have hset := hunwrapped _ (List.mem_cons_self)
  exact Eq.trans rfl (hset.trans rfl)

end GraphQuery
