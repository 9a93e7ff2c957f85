import GraphQuery.Clause.Layout
import GraphQuery.Proofs.Text.Line

/-! # Raw text

Query text is written line by line, each line at the depth where it stands. Its characters stay as
they are, except for blanks at the ends of the text and around its line breaks: of these the breaks
are left, with the indentation behind the last of them. -/

namespace GraphQuery

open Text

namespace Text

/-! ## Runs of blanks -/

/-- All of these are blank. -/
def Blanks (run : List Char) : Prop := ∀ c ∈ run, isBlank c = true

theorem Blanks.nil : Blanks [] := List.forall_mem_nil _

theorem Blanks.singleton {c : Char} (hc : isBlank c = true) : Blanks [c] :=
  List.forall_mem_singleton.mpr hc

theorem Blanks.append {run others : List Char} (h : Blanks run) (hothers : Blanks others) :
    Blanks (run ++ others) :=
  List.forall_mem_append.mpr ⟨h, hothers⟩

theorem Blanks.concat {run : List Char} {c : Char} (h : Blanks run) (hc : isBlank c = true) :
    Blanks (run ++ [c]) :=
  h.append (.singleton hc)

theorem blanks_replicate {c : Char} (hc : isBlank c = true) (count : Nat) :
    Blanks (List.replicate count c) :=
  fun _ hmem => List.eq_of_mem_replicate hmem ▸ hc

def indentation (depth : Nat) : List Char := List.replicate (2 * depth) ' '

theorem blanks_indentation (depth : Nat) : Blanks (indentation depth) :=
  blanks_replicate (by decide) _

theorem ne_break_of_solid {c : Char} (hc : isBlank c = false) : c ≠ '\n' := by
  rintro rfl
  exact absurd hc (by decide)

/-! ## Settling -/

/-- What becomes of the blanks between two other characters. -/
def settleBlanks (depth : Nat) (run : List Char) : List Char :=
  if '\n' ∈ run then List.replicate (run.count '\n') '\n' ++ indentation depth else run

/-- What becomes of characters behind a run of blanks, and of the run. -/
def settleFrom (depth : Nat) (run : List Char) : List Char → List Char
  | [] => settleBlanks depth run
  | c :: cs =>
      if isBlank c then settleFrom depth (run ++ [c]) cs
      else settleBlanks depth run ++ c :: settleFrom depth [] cs

/-- What becomes of characters when their lines are moved to the depth. -/
def settle (depth : Nat) (cs : List Char) : List Char := settleFrom depth [] cs

variable {depth : Nat} {run cs : List Char} {c : Char}

@[simp] theorem settleBlanks_nil : settleBlanks depth [] = [] := rfl

theorem Blanks.settleBlanks (h : Blanks run) (depth : Nat) : Blanks (settleBlanks depth run) := by
  unfold Text.settleBlanks
  split
  · exact (blanks_replicate (by decide) _).append (blanks_indentation depth)
  · exact h

theorem settleBlanks_eq_nil_iff : settleBlanks depth run = [] ↔ run = [] := by
  unfold settleBlanks
  split
  · next hbreak =>
      have hcount : 0 < run.count '\n' := List.count_pos_iff.mpr hbreak
      have hne : run ≠ [] := List.ne_nil_of_mem hbreak
      simp [hcount.ne', hne]
  · rfl

theorem settleFrom_blank (hc : isBlank c = true) :
    settleFrom depth run (c :: cs) = settleFrom depth (run ++ [c]) cs := by
  rw [settleFrom, if_pos hc]

theorem settleFrom_solid (hc : isBlank c = false) :
    settleFrom depth run (c :: cs) = settleBlanks depth run ++ c :: settle depth cs := by
  rw [settleFrom, if_neg (by simp [hc]), settle]

/-- A character that is not blank keeps apart what stands before and behind it. -/
theorem settleFrom_append (hc : isBlank c = false) (front back : List Char) :
    settleFrom depth run (front ++ c :: back) =
      settleFrom depth run front ++ c :: settle depth back := by
  induction front generalizing run with
  | nil => exact settleFrom_solid hc
  | cons d front ih =>
      rw [List.cons_append]
      cases hd : isBlank d with
      | true => rw [settleFrom_blank hd, settleFrom_blank hd, ih]
      | false =>
          rw [settleFrom_solid hd, settleFrom_solid hd, settle, ih, settle, settle,
            List.append_assoc, List.cons_append]

theorem exists_settleBlanks (depth : Nat) (hrun : Blanks run) (hne : run ≠ []) :
    ∃ c rest, settleBlanks depth run = c :: rest ∧ isBlank c = true := by
  obtain ⟨c, rest, hsettled⟩ := List.exists_cons_of_ne_nil (mt settleBlanks_eq_nil_iff.mp hne)
  exact ⟨c, rest, hsettled, hrun.settleBlanks depth c (by simp [hsettled])⟩

/-- Blanks never become nothing. -/
theorem exists_settleFrom (depth : Nat) (hrun : Blanks run) (hne : run ≠ []) (cs : List Char) :
    ∃ c rest, settleFrom depth run cs = c :: rest ∧ isBlank c = true := by
  induction cs generalizing run with
  | nil => exact exists_settleBlanks depth hrun hne
  | cons c cs ih =>
      cases hc : isBlank c with
      | true =>
          rw [settleFrom_blank hc]
          exact ih (hrun.concat hc) (List.append_ne_nil_of_right_ne_nil _ (List.cons_ne_nil _ _))
      | false =>
          obtain ⟨d, rest, hsettled, hd⟩ := exists_settleBlanks depth hrun hne
          exact ⟨d, rest ++ c :: settle depth cs, by rw [settleFrom_solid hc, hsettled]; rfl, hd⟩

/-! ## Lines -/

/-- What is written of one line. -/
def settleLine (depth : Nat) (line : List Char) : List Char :=
  (lineAt depth (trim (String.ofList line))).toList

/-- What is written of a line in front of which a run of blanks stands. -/
def settleLineFrom (depth : Nat) (run line : List Char) : List Char :=
  if '\n' ∈ run then List.replicate (run.count '\n') '\n' ++ settleLine depth line
  else dropBlanksEnd (run ++ line)

theorem dropBlanksEnd_eq_nil (h : Blanks run) : dropBlanksEnd run = [] :=
  List.rdropWhile_eq_nil_iff.mpr h

theorem settleLine_eq (depth : Nat) (line : List Char) :
    settleLine depth line =
      if dropBlanksEnd (dropBlanks line) = [] then []
      else indentation depth ++ dropBlanksEnd (dropBlanks line) := by
  have hkept : dropBlanksEnd (dropBlanksEnd (dropBlanks line)) = dropBlanksEnd (dropBlanks line) :=
    List.rdropWhile_idempotent isBlank _
  have hblank : dropBlanksEnd (List.replicate (2 * depth) ' ') = [] :=
    dropBlanksEnd_eq_nil (blanks_indentation depth)
  simp only [settleLine, lineAt, trim, trimStart, trimEnd, String.toList_ofList,
    String.toList_append, dropBlanksEnd_append, hkept, hblank, indentation]

theorem settleLine_nil (depth : Nat) : settleLine depth [] = [] := settleLine_eq depth []

theorem settleLine_blank (hc : isBlank c = true) (line : List Char) :
    settleLine depth (c :: line) = settleLine depth line := by
  have hdrop : dropBlanks (c :: line) = dropBlanks line := List.dropWhile_cons_of_pos hc
  rw [settleLine_eq, settleLine_eq, hdrop]

theorem settleLine_solid (hc : isBlank c = false) (line : List Char) :
    settleLine depth (c :: line) = indentation depth ++ c :: dropBlanksEnd line := by
  have hdrop : dropBlanks (c :: line) = c :: line := List.dropWhile_cons_of_neg (by simp [hc])
  rw [settleLine_eq, hdrop, dropBlanksEnd_cons hc, if_neg (List.cons_ne_nil _ _)]

theorem settleLineFrom_nil (hrun : Blanks run) :
    settleLineFrom depth run [] = List.replicate (run.count '\n') '\n' := by
  unfold settleLineFrom
  split
  · rw [settleLine_nil, List.append_nil]
  · next hbreak => rw [List.append_nil, dropBlanksEnd_eq_nil hrun, List.count_eq_zero.mpr hbreak,
      List.replicate_zero]

theorem settleLineFrom_blank (hc : isBlank c = true) (hbreak : c ≠ '\n') (line : List Char) :
    settleLineFrom depth run (c :: line) = settleLineFrom depth (run ++ [c]) line := by
  simp [settleLineFrom, settleLine_blank hc, hbreak, Ne.symm hbreak]

theorem settleLineFrom_break (hrun : Blanks run) (line : List Char) :
    settleLineFrom depth (run ++ ['\n']) line =
      settleLineFrom depth run [] ++ '\n' :: settleLine depth line := by
  rw [settleLineFrom_nil hrun, settleLineFrom, if_pos (by simp), List.count_append,
    List.count_singleton_self, List.replicate_succ', List.append_assoc, List.singleton_append]

theorem settleLineFrom_solid (hc : isBlank c = false) (line : List Char) :
    settleLineFrom depth run (c :: line) = settleBlanks depth run ++ c :: dropBlanksEnd line := by
  unfold settleLineFrom settleBlanks
  split
  · rw [settleLine_solid hc, List.append_assoc]
  · by_cases hrun : run = []
    · rw [hrun, List.nil_append, List.nil_append, dropBlanksEnd_cons hc]
    · rw [dropBlanksEnd_append, dropBlanksEnd_cons hc, if_neg (List.cons_ne_nil _ _)]

/-- Characters whose last one is not blank are settled line by line. -/
theorem settleFrom_lines (hc : isBlank c = false) {line : List Char} {lines : List (List Char)}
    (hrun : Blanks run) (hlines : splitBreaks (cs ++ [c]) = line :: lines) :
    settleFrom depth run cs ++ [c] =
      settleLineFrom depth run line ++ lines.flatMap fun line => '\n' :: settleLine depth line := by
  have hbreak := ne_break_of_solid hc
  induction cs generalizing run line lines with
  | nil =>
      have hsingle : splitBreaks [c] = [[c]] := splitBreaks_of_not_mem (by simpa using hbreak.symm)
      rw [List.nil_append, hsingle] at hlines
      cases hlines
      rw [settleLineFrom_solid hc]
      exact (List.append_nil _).symm
  | cons d cs ih =>
      obtain ⟨first, later, hrest⟩ := List.exists_cons_of_ne_nil (splitBreaks_ne_nil (cs ++ [c]))
      rw [List.cons_append, splitBreaks, hrest] at hlines
      by_cases hd : d = '\n'
      · subst hd
        cases hlines
        rw [settleFrom_blank (by decide), ih (hrun.concat (by decide)) hrest,
          settleLineFrom_break hrun, List.flatMap_cons, List.append_assoc, List.cons_append]
      · rw [if_neg hd] at hlines
        cases hlines
        cases hblank : isBlank d with
        | true =>
            rw [settleFrom_blank hblank, ih (hrun.concat hblank) hrest,
              settleLineFrom_blank hblank hd]
        | false =>
            have hbehind := ih .nil hrest
            rw [settleFrom_solid hblank, settleLineFrom_solid hblank, List.append_assoc,
              List.append_assoc, List.cons_append, List.cons_append, settle, hbehind]
            rfl

theorem settle_lines {line : List Char} {lines : List (List Char)}
    (hstart : ∀ c ∈ cs.head?, isBlank c = false) (hend : ∀ c ∈ cs.getLast?, isBlank c = false)
    (hne : cs ≠ []) (hlines : splitBreaks cs = line :: lines) :
    indentation depth ++ settle depth cs =
      settleLine depth line ++ lines.flatMap fun line => '\n' :: settleLine depth line := by
  obtain ⟨first, rest, rfl⟩ := List.exists_cons_of_ne_nil hne
  have hfirst : isBlank first = false := hstart first rfl
  obtain ⟨piece, pieces, hrest⟩ := List.exists_cons_of_ne_nil (splitBreaks_ne_nil rest)
  have hsplit : splitBreaks (first :: rest) = (first :: piece) :: pieces := by
    rw [splitBreaks, if_neg (ne_break_of_solid hfirst), hrest]
  obtain ⟨rfl, rfl⟩ := List.cons.inj (hlines.symm.trans hsplit)
  obtain hnil | ⟨front, last, hconcat⟩ := List.eq_nil_or_concat (first :: rest)
  · exact absurd hnil hne
  · rw [List.concat_eq_append] at hconcat
    have hlast : isBlank last = false := hend last (by rw [hconcat]; simp)
    rw [hconcat] at hlines ⊢
    have hwhole : settle depth (front ++ [last]) = settleFrom depth [] front ++ [last] :=
      settleFrom_append hlast front []
    rw [hwhole, settleFrom_lines hlast .nil hlines, settleLineFrom_solid hfirst,
      settleLine_solid hfirst, settleBlanks_nil, List.nil_append, List.append_assoc]

end Text

/-- The lines of query text are its settled characters behind the indentation, but for the blanks
at its ends. -/
theorem rawLines_eq (depth : Nat) (text : String) :
    (joinWith "\n" (rawLines depth text)).toList =
      if trim text = "" then [] else indentation depth ++ settle depth (trim text).toList := by
  unfold rawLines lines
  split
  · rfl
  · next hne =>
      have hfilled : (trim text).toList ≠ [] := fun h => hne (String.toList_eq_nil_iff.mp h)
      obtain ⟨line, rest, hlines⟩ :=
        List.exists_cons_of_ne_nil (splitBreaks_ne_nil (trim text).toList)
      rw [settle_lines (trim_head? text) (fun _ => trimEnd_getLast?) hfilled hlines, hlines]
      simp only [List.map_cons, toList_joinWith, List.flatMap_map, settleLine]

/-! ## Settled characters -/

namespace Text

variable {depth : Nat} {run cs : List Char} {c : Char}

/-- The blanks around each line break are breaks and, behind them, the indentation. -/
def Settled (depth : Nat) (cs : List Char) : Prop :=
  ∀ front run back, cs = front ++ run ++ back → '\n' ∈ run → Blanks run →
    (∀ c ∈ front.getLast?, isBlank c = false) → (∀ c ∈ back.head?, isBlank c = false) →
    run = List.replicate (run.count '\n') '\n' ++ indentation depth

theorem blanks_append_inj {run' rest rest' : List Char} (hrun : Blanks run) (hrun' : Blanks run')
    (hc : isBlank c = false) :
    run ++ c :: rest = run' ++ c :: rest' ↔ run = run' ∧ rest = rest' := by
  have htake : ∀ {run rest : List Char}, Blanks run →
      (run ++ c :: rest).takeWhile isBlank = run := by
    intro run rest hrun
    rw [List.takeWhile_append_of_pos hrun, List.takeWhile_cons_of_neg (by simp [hc]),
      List.append_nil]
  constructor
  · intro h
    have heq : run = run' := by rw [← htake hrun, h, htake hrun']
    rw [heq] at h
    exact ⟨heq, List.tail_eq_of_cons_eq (List.append_cancel_left h)⟩
  · rintro ⟨rfl, rfl⟩
    rfl

theorem settleFrom_blanks (h : Blanks cs) :
    settleFrom depth run cs = settleBlanks depth (run ++ cs) := by
  induction cs generalizing run with
  | nil => rw [List.append_nil, settleFrom]
  | cons c cs ih =>
      obtain ⟨hc, hcs⟩ := List.forall_mem_cons.mp h
      rw [settleFrom_blank hc, ih hcs, List.append_assoc, List.singleton_append]

theorem settleFrom_append_eq_iff (hrun : Blanks run) (hc : isBlank c = false)
    (front back : List Char) :
    settleFrom depth run (front ++ c :: back) = run ++ (front ++ c :: back) ↔
      settleFrom depth run front = run ++ front ∧ settle depth back = back := by
  induction front generalizing run with
  | nil =>
      rw [List.nil_append, List.append_nil, settleFrom_solid hc, settleFrom]
      exact blanks_append_inj (hrun.settleBlanks depth) hrun hc
  | cons d front ih =>
      cases hd : isBlank d with
      | true =>
          have hbehind := ih (hrun.concat hd)
          rw [List.append_assoc, List.append_assoc] at hbehind
          rw [List.cons_append, settleFrom_blank hd, settleFrom_blank hd]
          exact hbehind
      | false =>
          have hsettled := hrun.settleBlanks depth
          rw [List.cons_append, settleFrom_solid hd, settleFrom_solid hd,
            blanks_append_inj hsettled hrun hd, blanks_append_inj hsettled hrun hd, and_assoc]
          exact and_congr_right fun _ => ih .nil

theorem settleBlanks_eq_self_iff :
    settleBlanks depth run = run ↔
      ('\n' ∈ run → run = List.replicate (run.count '\n') '\n' ++ indentation depth) := by
  unfold settleBlanks
  split
  · next hbreak => exact ⟨fun h _ => h.symm, fun h => (h hbreak).symm⟩
  · next hbreak => exact iff_of_true rfl fun hmem => absurd hmem hbreak

theorem Settled.behind {front : List Char} (h : Settled depth (front ++ c :: cs))
    (hc : isBlank c = false) : Settled depth cs := by
  rintro before run back rfl hbreak hrun hbefore hback
  refine h (front ++ c :: before) run back (by simp) hbreak hrun ?_ hback
  rw [List.getLast?_append_cons]
  cases before with
  | nil => simpa using hc
  | cons d before => rwa [List.getLast?_cons_cons]

theorem settleFrom_eq_of_settled (hrun : Blanks run) (h : Settled depth (run ++ cs)) :
    settleFrom depth run cs = run ++ cs := by
  induction cs generalizing run with
  | nil =>
      rw [List.append_nil] at h ⊢
      exact settleBlanks_eq_self_iff.mpr fun hbreak =>
        h [] run [] (by simp) hbreak hrun (by simp) (by simp)
  | cons c cs ih =>
      cases hc : isBlank c with
      | true =>
          rw [settleFrom_blank hc, ih (hrun.concat hc) (by simpa using h), List.append_assoc,
            List.singleton_append]
      | false =>
          have hfront : settleBlanks depth run = run :=
            settleBlanks_eq_self_iff.mpr fun hbreak =>
              h [] run (c :: cs) (by simp) hbreak hrun (by simp) (by simpa using hc)
          rw [settleFrom_solid hc, hfront, settle, ih .nil (h.behind hc)]
          rfl

/-- Characters stay as they are if and only if they are settled. -/
theorem settle_eq_self_iff : settle depth cs = cs ↔ Settled depth cs := by
  refine ⟨?_, fun h => settleFrom_eq_of_settled .nil h⟩
  rintro h front run back rfl hbreak hrun hfront hback
  -- Both neighbours of the run are solid, so that what is settled is the run by itself.
  have hleft : settle depth (front ++ run) = front ++ run := by
    cases back with
    | nil => simpa using h
    | cons c back =>
        exact ((settleFrom_append_eq_iff .nil (hback c rfl) _ back).mp h).1
  have hself : settle depth run = run := by
    obtain rfl | ⟨before, c, rfl⟩ := List.eq_nil_or_concat front
    · exact hleft
    · rw [List.concat_eq_append] at hfront hleft
      rw [List.append_assoc, List.singleton_append] at hleft
      have hc : isBlank c = false := hfront c (by simp)
      exact ((settleFrom_append_eq_iff .nil hc before run).mp hleft).2
  rw [settle, settleFrom_blanks hrun] at hself
  exact settleBlanks_eq_self_iff.mp hself hbreak

instance : Decidable (Settled depth cs) := decidable_of_iff _ settle_eq_self_iff

example : Settled 1 "a\n  b".toList ∧ ¬ Settled 0 "a\n  b".toList := by decide

theorem settled_of_not_mem (h : '\n' ∉ cs) : Settled depth cs := by
  rintro front run back rfl hbreak
  exact absurd (by simp [hbreak]) h

end Text

end GraphQuery
