import GraphQuery.Proofs.Formula.Symbol

/-! # The grammar of conditions

`NOT` binds tighter than `AND`, `AND` tighter than `XOR`, `XOR` tighter than `OR`; brackets group,
and a chain of one connective is a single node. No text can be read in two ways. -/

namespace GraphQuery.Formula

/-- The grammar's own order of binding, the loosest connective first. -/
def level : Connective → Nat
  | .or => 0
  | .xor => 1
  | .and => 2
  | .not => 3

theorem level_injective {c d : Connective} (h : level c = level d) : c = d := by
  cases c <;> cases d <;> first | rfl | cases h

theorem level_lt_not {c : Connective} (h : c ≠ .not) : level c < level .not := by
  cases c <;> first | decide | exact absurd rfl h

/-- The symbols read as the formula with no connective outside brackets looser than `bound`. -/
inductive Derives : Nat → List Symbol → Formula String → Prop
  | leaf (bound : Nat) (text : String) : Derives bound [.leaf text] (.raw text)
  | group {bound : Nat} {inside : List Symbol} {formula : Formula String} :
      Derives 0 inside formula → Derives bound (.opening :: (inside ++ [.closing])) formula
  | negation {bound : Nat} {rest : List Symbol} {operand : Formula String} :
      bound ≤ level .not → Derives (level .not) rest operand →
      Derives bound (.connective .not :: rest) (.boolean .not [operand])
  | chain {bound : Nat} {c : Connective} (parts : List (List Symbol × Formula String)) :
      c ≠ .not → bound ≤ level c → 2 ≤ parts.length →
      (∀ part ∈ parts, Derives (level c + 1) part.1 part.2) →
      Derives bound (List.intercalate [.connective c] (parts.map Prod.fst))
        (.boolean c (parts.map Prod.snd))

/-- The grammar reads the text as the formula. -/
def Reads (text : String) (formula : Formula String) : Prop :=
  Derives 0 (symbols text) formula

theorem Derives.weaken {bound lower : Nat} {read : List Symbol} {formula : Formula String}
    (h : Derives bound read formula) (hle : lower ≤ bound) : Derives lower read formula := by
  cases h with
  | leaf _ text => exact .leaf lower text
  | group h => exact .group h
  | negation hb h => exact .negation (hle.trans hb) h
  | chain parts hc hb hlen h => exact .chain parts hc (hle.trans hb) hlen h

/-! ## Chains -/

/-- The symbols read as operands of one chain, of which there may be one alone. -/
def Chained (c : Connective) (read : List Symbol) (operands : List (Formula String)) : Prop :=
  ∃ parts : List (List Symbol × Formula String), parts ≠ [] ∧
    read = List.intercalate [.connective c] (parts.map Prod.fst) ∧
    operands = parts.map Prod.snd ∧ ∀ part ∈ parts, Derives (level c + 1) part.1 part.2

theorem Chained.single {c : Connective} {read : List Symbol} {formula : Formula String}
    (h : Derives (level c + 1) read formula) : Chained c read [formula] :=
  ⟨[(read, formula)], by simp, by simp, by simp, by simpa using h⟩

theorem intercalate_append {α : Type} (separator : List α) (xs ys : List (List α)) (hx : xs ≠ [])
    (hy : ys ≠ []) :
    List.intercalate separator (xs ++ ys) =
      List.intercalate separator xs ++ separator ++ List.intercalate separator ys := by
  induction xs with
  | nil => exact absurd rfl hx
  | cons x xs ih =>
      cases xs with
      | nil => simp [List.intercalate_cons_of_ne_nil hy]
      | cons next xs =>
          have htail := ih (by simp)
          rw [List.cons_append] at htail
          rw [List.cons_append, List.cons_append, List.intercalate_cons_cons, htail,
            List.intercalate_cons_cons]
          simp

theorem Chained.append {c : Connective} {left right : List Symbol}
    {operands others : List (Formula String)} (hl : Chained c left operands)
    (hr : Chained c right others) :
    Chained c (left ++ [.connective c] ++ right) (operands ++ others) := by
  obtain ⟨parts, hne, rfl, rfl, hparts⟩ := hl
  obtain ⟨parts', hne', rfl, rfl, hparts'⟩ := hr
  refine ⟨parts ++ parts', by simp [hne], ?_, by simp, ?_⟩
  · rw [List.map_append, intercalate_append _ _ _ (by simpa using hne) (by simpa using hne')]
  · intro part hp
    exact (List.mem_append.mp hp).elim (hparts part) (hparts' part)

theorem Chained.length_pos {c : Connective} {read : List Symbol}
    {operands : List (Formula String)} (h : Chained c read operands) : 0 < operands.length := by
  obtain ⟨parts, hne, _, rfl, _⟩ := h
  simpa [List.length_pos_iff] using hne

theorem Chained.derives {c : Connective} {read : List Symbol} {operands : List (Formula String)}
    (h : Chained c read operands) (hc : c ≠ .not) (hlen : 2 ≤ operands.length) :
    Derives 0 read (.boolean c operands) := by
  obtain ⟨parts, _, rfl, rfl, hparts⟩ := h
  exact .chain parts hc (Nat.zero_le _) (by simpa using hlen) hparts

/-! ## Cutting at a connective -/

def Symbol.depthAfter (depth : Nat) : Symbol → Nat
  | .opening => depth + 1
  | .closing => depth - 1
  | _ => depth

/-- The parts of the symbols between the occurrences of a connective outside all brackets, when
`depth` brackets are open already. -/
def cut (c : Connective) (depth : Nat) : List Symbol → List (List Symbol)
  | [] => [[]]
  | symbol :: rest =>
      if depth = 0 ∧ symbol = .connective c then [] :: cut c 0 rest
      else (cut c (symbol.depthAfter depth) rest).modifyHead (symbol :: ·)

theorem cut_separator (c : Connective) (rest : List Symbol) :
    cut c 0 (.connective c :: rest) = [] :: cut c 0 rest := by
  simp [cut]

theorem cut_cons (c : Connective) (depth : Nat) (symbol : Symbol) (rest : List Symbol)
    (h : 0 < depth ∨ symbol ≠ .connective c) :
    cut c depth (symbol :: rest) =
      (cut c (symbol.depthAfter depth) rest).modifyHead (symbol :: ·) := by
  rw [cut, if_neg]
  rintro ⟨rfl, rfl⟩
  simp at h

/-- Nowhere in the symbols is there a place to cut, and all brackets they open they close. -/
def Solid (c : Connective) (depth : Nat) (read : List Symbol) : Prop :=
  ∀ rest, cut c depth (read ++ rest) = (cut c depth rest).modifyHead (read ++ ·)

theorem Solid.cut_eq {c : Connective} {read : List Symbol} (h : Solid c 0 read) :
    cut c 0 read = [read] := by
  simpa [cut] using h []

theorem solid_intercalate {c d : Connective} {depth : Nat} (parts : List (List Symbol))
    (hne : parts ≠ []) (hd : 0 < depth ∨ d ≠ c) (h : ∀ part ∈ parts, Solid c depth part) :
    Solid c depth (List.intercalate [.connective d] parts) := by
  intro rest
  induction parts with
  | nil => exact absurd rfl hne
  | cons part parts ih =>
      cases parts with
      | nil => simpa using h part (by simp) rest
      | cons next parts =>
          have htail := ih (by simp) (fun p hp => h p (by simp [List.mem_cons.mp hp]))
          have hsep : 0 < depth ∨ Symbol.connective d ≠ .connective c :=
            hd.imp_right fun hdc heq => hdc (Symbol.connective.inj heq)
          rw [List.intercalate_cons_cons, List.append_assoc, List.append_assoc,
            h part (by simp), List.singleton_append, cut_cons _ _ _ _ hsep]
          simp only [Symbol.depthAfter]
          rw [htail]
          simp [List.modifyHead_modifyHead, Function.comp_def, List.append_assoc]

/-- A connective looser than the bound never stands outside brackets. -/
theorem Derives.solid {bound : Nat} {read : List Symbol} {formula : Formula String}
    (h : Derives bound read formula) (c : Connective) (depth : Nat)
    (hc : 0 < depth ∨ level c < bound) : Solid c depth read := by
  induction h generalizing depth with
  | leaf bound text =>
      intro rest
      rw [List.singleton_append, cut_cons _ _ _ _ (Or.inr (by simp))]
      rfl
  | @group bound inside formula _ ih =>
      intro rest
      rw [List.cons_append, cut_cons _ _ _ _ (Or.inr (by simp)), List.append_assoc]
      simp only [Symbol.depthAfter]
      rw [ih (depth + 1) (Or.inl (Nat.succ_pos depth)), List.singleton_append,
        cut_cons _ _ _ _ (Or.inl (Nat.succ_pos depth))]
      simp [Symbol.depthAfter, List.modifyHead_modifyHead, Function.comp_def]
  | @negation bound tail operand hb _ ih =>
      intro rest
      have hsep : 0 < depth ∨ Symbol.connective .not ≠ .connective c := by
        refine hc.imp_right fun hlt heq => ?_
        rw [← Symbol.connective.inj heq] at hlt
        omega
      rw [List.cons_append, cut_cons _ _ _ _ hsep]
      simp only [Symbol.depthAfter]
      rw [ih depth (hc.imp_right fun hlt => by omega)]
      simp [List.modifyHead_modifyHead, Function.comp_def]
  | @chain bound d parts _ hb hlen _ ih =>
      apply solid_intercalate
      · intro hnil
        simp [List.map_eq_nil_iff.mp hnil] at hlen
      · refine hc.imp_right fun hlt heq => ?_
        rw [heq] at hb
        omega
      · intro part hpart
        obtain ⟨pair, hpair, rfl⟩ := List.mem_map.mp hpart
        exact ih pair hpair depth (hc.imp_right fun hlt => by omega)

/-- Cutting a chain at its connective gives its parts. -/
theorem cut_intercalate (c : Connective) (parts : List (List Symbol)) (hne : parts ≠ [])
    (h : ∀ part ∈ parts, Solid c 0 part) :
    cut c 0 (List.intercalate [.connective c] parts) = parts := by
  induction parts with
  | nil => exact absurd rfl hne
  | cons part parts ih =>
      cases parts with
      | nil => simpa using (h part (by simp)).cut_eq
      | cons next parts =>
          rw [List.intercalate_cons_cons, List.append_assoc, h part (by simp),
            List.singleton_append, cut_separator,
            ih (by simp) (fun p hp => h p (by simp [List.mem_cons.mp hp]))]
          simp

theorem cut_chain {c : Connective} (parts : List (List Symbol × Formula String))
    (hlen : 2 ≤ parts.length) (h : ∀ part ∈ parts, Derives (level c + 1) part.1 part.2) :
    cut c 0 (List.intercalate [.connective c] (parts.map Prod.fst)) = parts.map Prod.fst := by
  apply cut_intercalate
  · intro hnil
    simp [List.map_eq_nil_iff.mp hnil] at hlen
  · intro part hpart
    obtain ⟨pair, hpair, rfl⟩ := List.mem_map.mp hpart
    exact (h pair hpair).solid c 0 (Or.inr (Nat.lt_succ_self _))

/-! ## Reading is unique -/

/-- Symbols that read with nothing but tighter connectives are no chain of this one. -/
theorem Derives.ne_chain {c : Connective} {bound : Nat} {read : List Symbol}
    {formula : Formula String} (h : Derives bound read formula) (hlt : level c < bound)
    (parts : List (List Symbol × Formula String)) (hlen : 2 ≤ parts.length)
    (hparts : ∀ part ∈ parts, Derives (level c + 1) part.1 part.2) :
    read ≠ List.intercalate [.connective c] (parts.map Prod.fst) := by
  intro heq
  have hcut : parts.map Prod.fst = [read] := by
    rw [← cut_chain parts hlen hparts, ← heq, (h.solid c 0 (Or.inr hlt)).cut_eq]
  have hone : parts.length = 1 := by simpa using congrArg List.length hcut
  omega

theorem map_snd_eq_of_unique {c : Connective} (parts others : List (List Symbol × Formula String))
    (hfst : parts.map Prod.fst = others.map Prod.fst)
    (hunique : ∀ part ∈ parts, ∀ g, Derives (level c + 1) part.1 g → part.2 = g)
    (hothers : ∀ part ∈ others, Derives (level c + 1) part.1 part.2) :
    parts.map Prod.snd = others.map Prod.snd := by
  induction parts generalizing others with
  | nil => simp [List.map_eq_nil_iff.mp hfst.symm]
  | cons part parts ih =>
      cases others with
      | nil => simp at hfst
      | cons other others =>
          simp only [List.map_cons, List.cons.injEq] at hfst
          have hother := hothers other (by simp)
          rw [← hfst.1] at hother
          rw [List.map_cons, List.map_cons, hunique part (by simp) _ hother,
            ih others hfst.2 (fun p hp => hunique p (by simp [hp]))
              (fun p hp => hothers p (by simp [hp]))]

/-- The grammar is unambiguous. -/
theorem Derives.unique {bound other : Nat} {read : List Symbol} {f g : Formula String}
    (hf : Derives bound read f) (hg : Derives other read g) : f = g := by
  induction hf generalizing other g with
  | leaf bound text =>
      have hself := Derives.leaf (level .not) text
      generalize hread : [Symbol.leaf text] = read at hg hself
      cases hg with
      | leaf _ other =>
          simp only [List.cons.injEq, Symbol.leaf.injEq, and_true] at hread
          rw [hread]
      | group => simp at hread
      | negation => simp at hread
      | chain parts hc _ hlen hparts =>
          exact absurd rfl (hself.ne_chain (level_lt_not hc) parts hlen hparts)
  | @group bound inside f hinside ih =>
      have hself : Derives (level .not) _ f := .group hinside
      generalize hread : Symbol.opening :: (inside ++ [Symbol.closing]) = read at hg hself
      cases hg with
      | leaf => simp at hread
      | group h =>
          simp only [List.cons.injEq, List.append_cancel_right_eq, true_and] at hread
          subst hread
          exact ih h
      | negation => simp at hread
      | chain parts hc _ hlen hparts =>
          exact absurd rfl (hself.ne_chain (level_lt_not hc) parts hlen hparts)
  | @negation bound rest operand hb hrest ih =>
      have hself := Derives.negation le_rfl hrest
      generalize hread : Symbol.connective .not :: rest = read at hg hself
      cases hg with
      | leaf => simp at hread
      | group => simp at hread
      | negation _ h =>
          simp only [List.cons.injEq, true_and] at hread
          subst hread
          rw [ih h]
      | chain parts hc _ hlen hparts =>
          exact absurd rfl (hself.ne_chain (level_lt_not hc) parts hlen hparts)
  | @chain bound c parts hc hb hlen hparts ih =>
      have hself := Derives.chain parts hc le_rfl hlen hparts
      have hlt := level_lt_not hc
      generalize hread : List.intercalate [Symbol.connective c] (parts.map Prod.fst) = read
        at hg hself
      cases hg with
      | leaf _ text =>
          exact absurd hread.symm
            ((Derives.leaf (level .not) text).ne_chain hlt parts hlen hparts)
      | group h => exact absurd hread.symm ((Derives.group h).ne_chain hlt parts hlen hparts)
      | negation _ h =>
          exact absurd hread.symm ((Derives.negation le_rfl h).ne_chain hlt parts hlen hparts)
      | @chain _ d others hd _ hlen' hothers =>
          have hother := Derives.chain others hd le_rfl hlen' hothers
          rcases lt_trichotomy (level c) (level d) with hlt | heq | hlt
          · exact absurd hread.symm (hother.ne_chain hlt parts hlen hparts)
          · obtain rfl := level_injective heq
            have hfst : parts.map Prod.fst = others.map Prod.fst := by
              rw [← cut_chain parts hlen hparts, hread, cut_chain others hlen' hothers]
            rw [map_snd_eq_of_unique parts others hfst (fun part hp g => ih part hp) hothers]
          · exact absurd rfl (hself.ne_chain hlt others hlen' hothers)

end GraphQuery.Formula
