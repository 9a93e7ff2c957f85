import GraphQuery.Proofs.Clause.RawText
import GraphQuery.Proofs.Formula.Quotation

/-! # Quotations in raw text

What is written of query text that falls into single characters and quotations. Its words, with the
quotations in them, stay what they are and in their order, except that each quotation is settled by
itself. -/

namespace GraphQuery

open Text

namespace Formula.Part

/-! ## Words -/

def isBlank : Part → Bool
  | .bare c => Text.isBlank c
  | .quoted _ _ => false

/-- A quotation stands between quotes. -/
def Marked : Part → Prop
  | .bare _ => True
  | .quoted mark _ => isQuote mark = true

/-- What is written of a part. -/
def settle (depth : Nat) : Part → Part
  | .bare c => .bare c
  | .quoted mark body => .quoted mark (Text.settle depth body)

variable {parts front back run word : List Part} {part : Part}

theorem Closed.marked (h : part.Closed) : part.Marked := by
  cases part with
  | bare c => trivial
  | quoted mark body => exact h.1

@[simp] theorem settle_isBlank (depth : Nat) (part : Part) :
    (part.settle depth).isBlank = part.isBlank := by
  cases part <;> rfl

theorem exists_blank (h : part.isBlank = true) : ∃ c, part = .bare c ∧ Text.isBlank c = true := by
  cases part with
  | bare c => exact ⟨c, rfl, h⟩
  | quoted mark body => cases h

/-- The longest runs of parts that are not blank. -/
def words (parts : List Part) : List (List Part) :=
  (parts.splitOnP isBlank).filter fun word => word ≠ []

theorem words_append_blank (h : part.isBlank = true) (front back : List Part) :
    words (front ++ part :: back) = words front ++ words back := by
  rw [words, List.splitOnP_append_cons front back h, List.filter_append, words, words]

theorem words_of_blank (h : ∀ part ∈ run, part.isBlank = true) : words run = [] := by
  induction run with
  | nil => rfl
  | cons part run ih =>
      obtain ⟨hpart, hrun⟩ := List.forall_mem_cons.mp h
      have hfront := words_append_blank hpart [] run
      rwa [ih hrun] at hfront

/-- Blanks keep apart what stands before and behind them. -/
theorem words_append_blanks (h : ∀ part ∈ run, part.isBlank = true) (hne : run ≠ [])
    (front back : List Part) : words (front ++ (run ++ back)) = words front ++ words back := by
  induction run generalizing front with
  | nil => exact absurd rfl hne
  | cons part run ih =>
      obtain ⟨hpart, hrun⟩ := List.forall_mem_cons.mp h
      rw [List.cons_append, words_append_blank hpart]
      by_cases hlast : run = []
      · rw [hlast, List.nil_append]
      · exact congrArg (words front ++ ·) (ih hrun hlast [])

theorem words_blanks_append (h : ∀ part ∈ run, part.isBlank = true) (back : List Part) :
    words (run ++ back) = words back := by
  by_cases hne : run = []
  · rw [hne, List.nil_append]
  · exact words_append_blanks h hne [] back

theorem words_append_of_blanks (h : ∀ part ∈ run, part.isBlank = true) (front : List Part) :
    words (front ++ run) = words front := by
  by_cases hne : run = []
  · rw [hne, List.append_nil]
  · have hwords := words_append_blanks h hne front []
    rwa [List.append_nil, words_of_blank (List.forall_mem_nil _), List.append_nil] at hwords

theorem words_solid (h : ∀ part ∈ word, part.isBlank = false) (hne : word ≠ []) :
    words word = [word] := by
  rw [words, List.splitOnP_eq_singleton h]
  simp [hne]

theorem words_map_settle (depth : Nat) (h : ∀ part ∈ word, part.isBlank = false) :
    words (word.map (settle depth)) = (words word).map (List.map (settle depth)) := by
  by_cases hne : word = []
  · rw [hne]
    rfl
  · rw [words_solid h hne, words_solid (by simpa using h) (by simpa using hne)]
    rfl

/-! ## Settled parts -/

variable {depth : Nat} {blanks : List Char}

theorem not_isBlank_of_isQuote {c : Char} (h : isQuote c = true) : Text.isBlank c = false := by
  simp only [isQuote, Bool.or_eq_true, beq_iff_eq] at h
  rcases h with (rfl | rfl) | rfl <;> decide

theorem flatMap_bare (cs : List Char) : (cs.map bare).flatMap text = cs := by
  rw [List.flatMap_map]
  exact List.flatMap_singleton' cs

theorem map_bare_isBlank (h : Blanks blanks) : ∀ part ∈ blanks.map bare, part.isBlank = true :=
  List.forall_mem_map.mpr h

/-- What is written of parts behind blanks, and of these. -/
def settleParts (depth : Nat) (blanks : List Char) : List Part → List Part
  | [] => (settleBlanks depth blanks).map bare
  | .bare c :: parts =>
      if Text.isBlank c then settleParts depth (blanks ++ [c]) parts
      else (settleBlanks depth blanks).map bare ++ .bare c :: settleParts depth [] parts
  | .quoted mark body :: parts =>
      (settleBlanks depth blanks).map bare ++
        .quoted mark (Text.settle depth body) :: settleParts depth [] parts

theorem settleParts_blank {c : Char} (hc : Text.isBlank c = true) (parts : List Part) :
    settleParts depth blanks (.bare c :: parts) = settleParts depth (blanks ++ [c]) parts := by
  rw [settleParts, if_pos hc]

theorem settleParts_solid (h : part.isBlank = false) (parts : List Part) :
    settleParts depth blanks (part :: parts) =
      (settleBlanks depth blanks).map bare ++ part.settle depth :: settleParts depth [] parts := by
  cases part with
  | bare c => exact if_neg (by simpa [isBlank] using h)
  | quoted mark body => rfl

/-- The parts that are written have the settled characters. -/
theorem flatMap_settleParts (hmarked : ∀ part ∈ parts, part.Marked) :
    (settleParts depth blanks parts).flatMap text =
      Text.settleFrom depth blanks (parts.flatMap text) := by
  induction parts generalizing blanks with
  | nil => exact flatMap_bare _
  | cons part parts ih =>
      obtain ⟨hpart, hparts⟩ := List.forall_mem_cons.mp hmarked
      cases part with
      | bare c =>
          cases hc : Text.isBlank c with
          | true =>
              rw [settleParts_blank hc, ih hparts]
              exact (Text.settleFrom_blank hc).symm
          | false =>
              have hsolid : (bare c).isBlank = false := hc
              rw [settleParts_solid hsolid, List.flatMap_append, flatMap_bare, List.flatMap_cons,
                ih hparts]
              exact (Text.settleFrom_solid hc).symm
      | quoted mark body =>
          have hmark : Text.isBlank mark = false := not_isBlank_of_isQuote hpart
          have hbody : Text.settleFrom depth [] (body ++ mark :: parts.flatMap text) =
              Text.settleFrom depth [] body ++ mark :: Text.settle depth (parts.flatMap text) :=
            Text.settleFrom_append hmark body _
          rw [settleParts_solid rfl, List.flatMap_append, flatMap_bare, List.flatMap_cons,
            ih hparts, List.flatMap_cons]
          simp only [text, settle, List.cons_append, List.append_assoc, List.nil_append]
          rw [Text.settleFrom_solid hmark, Text.settle, Text.settle, hbody]
          rfl

/-- Each word that is written is a word in front, part by part. -/
theorem words_settleParts (hword : ∀ part ∈ word, part.isBlank = false) (hblanks : Blanks blanks) :
    words (word.map (settle depth) ++ settleParts depth blanks parts) =
      (words (word ++ (blanks.map bare ++ parts))).map (List.map (settle depth)) := by
  induction parts generalizing word blanks with
  | nil =>
      have hsettled := map_bare_isBlank (hblanks.settleBlanks depth)
      rw [settleParts, words_append_of_blanks hsettled, List.append_nil,
        words_append_of_blanks (map_bare_isBlank hblanks), words_map_settle depth hword]
  | cons part parts ih =>
      cases hpart : part.isBlank with
      | true =>
          obtain ⟨c, rfl, hc⟩ := exists_blank hpart
          rw [settleParts_blank hc, ih hword (hblanks.concat hc)]
          simp
      | false =>
          rw [settleParts_solid hpart]
          by_cases hnil : blanks = []
          · have hlonger : ∀ other ∈ word ++ [part], other.isBlank = false :=
              List.forall_mem_append.mpr ⟨hword, List.forall_mem_singleton.mpr hpart⟩
            have hbehind := ih hlonger .nil
            simpa [hnil] using hbehind
          · have hbehind := ih (List.forall_mem_singleton.mpr hpart) .nil
            have hsettled := map_bare_isBlank (hblanks.settleBlanks depth)
            have hsettledNil : (settleBlanks depth blanks).map bare ≠ [] := by
              simpa [settleBlanks_eq_nil_iff] using hnil
            rw [words_append_blanks hsettled hsettledNil, words_map_settle depth hword,
              words_append_blanks (map_bare_isBlank hblanks) (by simpa using hnil), List.map_append]
            exact congrArg (_ ++ ·) hbehind

/-! ## Quotations stay closed -/

variable {mark : Char} {body : List Char}

theorem encloses_blank_cons_iff {c : Char} (hmark : isQuote mark = true)
    (hc : Text.isBlank c = true) : Encloses mark (c :: body) ↔ Encloses mark body := by
  have hslash : c ≠ '\x5c' := by
    rintro rfl
    exact absurd hc (by decide)
  constructor
  · intro h
    cases h with
    | escaped => exact absurd rfl hslash
    | plain _ _ hbody => exact hbody
  · refine .plain ?_ fun h => absurd h hslash
    rintro rfl
    simp [not_isBlank_of_isQuote hmark] at hc

theorem encloses_blanks_append_iff (hmark : isQuote mark = true) (h : Blanks blanks) :
    Encloses mark (blanks ++ body) ↔ Encloses mark body := by
  induction blanks with
  | nil => rfl
  | cons c blanks ih =>
      obtain ⟨hc, hblanks⟩ := List.forall_mem_cons.mp h
      rw [List.cons_append, encloses_blank_cons_iff hmark hc, ih hblanks]

/-- Behind a backslash there is a blank left where a blank stood. -/
theorem encloses_settleFrom (hmark : isQuote mark = true) (hbody : Encloses mark body)
    (hblanks : Blanks blanks) : Encloses mark (Text.settleFrom depth blanks body) := by
  induction hbody generalizing blanks with
  | nil =>
      have hsettled := hblanks.settleBlanks depth
      rw [Text.settleFrom, ← List.append_nil (settleBlanks depth blanks),
        encloses_blanks_append_iff hmark hsettled]
      exact .nil
  | @escaped c body hstring _ ih =>
      rw [Text.settleFrom_solid (by decide),
        encloses_blanks_append_iff hmark (hblanks.settleBlanks depth), Text.settle]
      cases hc : Text.isBlank c with
      | true =>
          have hblank := Blanks.singleton hc
          obtain ⟨d, rest, hsettled, hd⟩ :=
            exists_settleFrom depth hblank (List.cons_ne_nil c []) body
          have hrest := ih hblank
          rw [hsettled, encloses_blank_cons_iff hmark hd] at hrest
          rw [Text.settleFrom_blank hc, List.nil_append, hsettled]
          exact .escaped d hstring hrest
      | false =>
          rw [Text.settleFrom_solid hc]
          exact .escaped c hstring (ih .nil)
  | @plain c body hne hname _ ih =>
      cases hc : Text.isBlank c with
      | true =>
          rw [Text.settleFrom_blank hc]
          exact ih (hblanks.concat hc)
      | false =>
          rw [Text.settleFrom_solid hc,
            encloses_blanks_append_iff hmark (hblanks.settleBlanks depth)]
          exact .plain hne hname (ih .nil)

theorem Closed.settle (h : part.Closed) (depth : Nat) : (part.settle depth).Closed := by
  cases part with
  | bare c => exact h
  | quoted mark body => exact ⟨h.1, encloses_settleFrom h.1 h.2 .nil⟩

theorem closed_bare {c : Char} (hc : Text.isBlank c = true) : (bare c).Closed := by
  cases hquote : isQuote c with
  | false => exact hquote
  | true => simp [not_isBlank_of_isQuote hquote] at hc

theorem closed_map_bare (h : Blanks blanks) : ∀ part ∈ blanks.map bare, part.Closed :=
  List.forall_mem_map.mpr fun c hc => closed_bare (h c hc)

theorem closed_settleParts (hclosed : ∀ part ∈ parts, part.Closed) (hblanks : Blanks blanks) :
    ∀ part ∈ settleParts depth blanks parts, part.Closed := by
  induction parts generalizing blanks with
  | nil => exact closed_map_bare (hblanks.settleBlanks depth)
  | cons part parts ih =>
      obtain ⟨hpart, hparts⟩ := List.forall_mem_cons.mp hclosed
      cases hblank : part.isBlank with
      | true =>
          obtain ⟨c, rfl, hc⟩ := exists_blank hblank
          rw [settleParts_blank hc]
          exact ih hparts (hblanks.concat hc)
      | false =>
          rw [settleParts_solid hblank, List.forall_mem_append, List.forall_mem_cons]
          exact ⟨closed_map_bare (hblanks.settleBlanks depth), hpart.settle depth, ih hparts .nil⟩

/-! ## Trimmed parts -/

def trimParts (parts : List Part) : List Part :=
  (parts.dropWhile isBlank).rdropWhile isBlank

/-- A part that is not blank neither begins nor ends with a blank. -/
theorem exists_text (hmarked : part.Marked) (hsolid : part.isBlank = false) :
    (∃ c cs, part.text = c :: cs ∧ Text.isBlank c = false) ∧
      ∃ cs c, part.text = cs ++ [c] ∧ Text.isBlank c = false := by
  cases part with
  | bare c => exact ⟨⟨c, [], rfl, hsolid⟩, [], c, rfl, hsolid⟩
  | quoted mark body =>
      have hmark := not_isBlank_of_isQuote hmarked
      exact ⟨⟨mark, body ++ [mark], rfl, hmark⟩, mark :: body, mark, rfl, hmark⟩

theorem dropBlanks_flatMap (hmarked : ∀ part ∈ parts, part.Marked) :
    dropBlanks (parts.flatMap text) = (parts.dropWhile isBlank).flatMap text := by
  induction parts with
  | nil => rfl
  | cons part parts ih =>
      obtain ⟨hpart, hparts⟩ := List.forall_mem_cons.mp hmarked
      cases hblank : part.isBlank with
      | true =>
          obtain ⟨c, rfl, hc⟩ := exists_blank hblank
          rw [List.dropWhile_cons_of_pos hblank, ← ih hparts]
          exact List.dropWhile_cons_of_pos hc
      | false =>
          obtain ⟨⟨c, cs, htext, hc⟩, -⟩ := exists_text hpart hblank
          rw [List.dropWhile_cons_of_neg (by simp [hblank]), List.flatMap_cons, htext]
          exact List.dropWhile_cons_of_neg (by simp [hc])

theorem dropBlanksEnd_flatMap (hmarked : ∀ part ∈ parts, part.Marked) :
    dropBlanksEnd (parts.flatMap text) = (parts.rdropWhile isBlank).flatMap text := by
  induction parts using List.reverseRecOn with
  | nil => rfl
  | append_singleton parts part ih =>
      obtain ⟨hparts, hpart⟩ := List.forall_mem_append.mp hmarked
      rw [List.flatMap_append, List.flatMap_singleton]
      cases hblank : part.isBlank with
      | true =>
          obtain ⟨c, rfl, hc⟩ := exists_blank hblank
          rw [List.rdropWhile_concat_pos _ _ _ hblank, ← ih hparts]
          exact List.rdropWhile_concat_pos _ _ _ hc
      | false =>
          obtain ⟨-, cs, c, htext, hc⟩ := exists_text (hpart part (.head _)) hblank
          rw [List.rdropWhile_concat_neg _ _ _ (by simp [hblank]), List.flatMap_append,
            List.flatMap_singleton, htext, ← List.append_assoc]
          exact List.rdropWhile_concat_neg _ _ _ (by simp [hc])

theorem mem_of_mem_trimParts (h : part ∈ trimParts parts) : part ∈ parts :=
  (List.dropWhile_sublist isBlank).mem ((List.rdropWhile_prefix isBlank _).sublist.mem h)

theorem toList_trim {text : String} (htext : text.toList = parts.flatMap Part.text)
    (hmarked : ∀ part ∈ parts, part.Marked) :
    (trim text).toList = (trimParts parts).flatMap Part.text := by
  have hleft : ∀ part ∈ parts.dropWhile isBlank, part.Marked := fun part hpart =>
    hmarked part ((List.dropWhile_sublist isBlank).mem hpart)
  rw [trim, trimEnd, trimStart, String.toList_ofList, String.toList_ofList, htext,
    dropBlanks_flatMap hmarked, dropBlanksEnd_flatMap hleft, trimParts]

theorem words_dropWhile (parts : List Part) : words (parts.dropWhile isBlank) = words parts := by
  conv_rhs => rw [← List.takeWhile_append_dropWhile (p := isBlank) (l := parts)]
  rw [words_blanks_append fun _ => List.mem_takeWhile_imp]

theorem words_rdropWhile (parts : List Part) : words (parts.rdropWhile isBlank) = words parts := by
  conv_rhs => rw [← List.rdropWhile_append_rtakeWhile (p := isBlank) (l := parts)]
  rw [words_append_of_blanks fun _ => List.mem_rtakeWhile_imp]

theorem words_trimParts (parts : List Part) : words (trimParts parts) = words parts := by
  rw [trimParts, words_rdropWhile, words_dropWhile]

theorem eq_nil_of_flatMap_text (h : parts.flatMap text = []) : parts = [] := by
  cases parts with
  | nil => rfl
  | cons part parts => cases part <;> simp [text] at h

/-! ## What is written -/

/-- Of query text that falls into parts, parts are written that have its words, each quotation
settled. -/
theorem exists_written {text : String} (depth : Nat)
    (htext : text.toList = parts.flatMap Part.text) (hmarked : ∀ part ∈ parts, part.Marked) :
    ∃ written : List Part,
      (joinWith "\n" (rawLines depth text)).toList = written.flatMap Part.text ∧
      ((∀ part ∈ parts, part.Closed) → ∀ part ∈ written, part.Closed) ∧
      words written = (words parts).map (List.map (settle depth)) := by
  have htrim := toList_trim htext hmarked
  rw [rawLines_eq, ← words_trimParts parts]
  by_cases hempty : trim text = ""
  · rw [hempty] at htrim
    rw [if_pos hempty, eq_nil_of_flatMap_text htrim.symm]
    exact ⟨[], rfl, fun _ => List.forall_mem_nil _, rfl⟩
  · have hspaces := blanks_indentation depth
    have hkept : ∀ part ∈ trimParts parts, part.Marked := fun part hpart =>
      hmarked part (mem_of_mem_trimParts hpart)
    refine ⟨(indentation depth).map bare ++ settleParts depth [] (trimParts parts), ?_, ?_, ?_⟩
    · rw [if_neg hempty, htrim, List.flatMap_append, flatMap_bare, flatMap_settleParts hkept,
        Text.settle]
    · intro hclosed
      have htrimmed : ∀ part ∈ trimParts parts, part.Closed := fun part hpart =>
        hclosed part (mem_of_mem_trimParts hpart)
      exact List.forall_mem_append.mpr
        ⟨closed_map_bare hspaces, closed_settleParts htrimmed .nil⟩
    · rw [words_blanks_append (map_bare_isBlank hspaces)]
      exact words_settleParts (List.forall_mem_nil _) .nil

theorem flatten_words (parts : List Part) :
    (words parts).flatten = parts.filter fun part => !part.isBlank := by
  rw [words, List.flatten_filter_ne_nil]
  induction parts with
  | nil => rfl
  | cons part parts ih =>
      obtain ⟨word, later, hsplit⟩ :=
        List.exists_cons_of_ne_nil (List.splitOnP_ne_nil isBlank parts)
      rw [List.splitOnP_cons_eq_if_modifyHead, List.filter_cons, ← ih, hsplit]
      cases part.isBlank <;> rfl

theorem map_eq_self_iff {α : Type} {f : α → α} {list : List α} :
    list.map f = list ↔ ∀ item ∈ list, f item = item := by
  have hsame := List.map_inj_left (l := list) (f := f) (g := id)
  rwa [List.map_id] at hsame

/-- The words stay what they are if and only if all quotations are settled. -/
theorem map_settle_words_iff (depth : Nat) (parts : List Part) :
    (words parts).map (List.map (settle depth)) = words parts ↔
      ∀ mark body, .quoted mark body ∈ parts → Settled depth body := by
  simp only [map_eq_self_iff]
  constructor
  · intro h mark body hmem
    have hflat : .quoted mark body ∈ (words parts).flatten := by
      rw [flatten_words, List.mem_filter]
      exact ⟨hmem, rfl⟩
    obtain ⟨word, hword, hpart⟩ := List.mem_flatten.mp hflat
    exact settle_eq_self_iff.mp (Part.quoted.inj (h word hword _ hpart)).2
  · intro h word hword part hpart
    cases part with
    | bare c => rfl
    | quoted mark body =>
        have hflat : .quoted mark body ∈ (words parts).flatten :=
          List.mem_flatten.mpr ⟨word, hword, hpart⟩
        rw [flatten_words] at hflat
        rw [settle, settle_eq_self_iff.mpr (h mark body (List.mem_of_mem_filter hflat))]

end Formula.Part

end GraphQuery
