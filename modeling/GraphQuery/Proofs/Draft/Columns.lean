import GraphQuery.Proofs.Draft.Everywhere
import GraphQuery.Proofs.Draft.Parameters
import GraphQuery.Proofs.Draft.Returns
import GraphQuery.Proofs.Scope.Every

/-! # Columns

A column is written as its name, with the origin before it where that is something else. No origin
is empty as long as no mention gives its variable an empty text. -/

namespace GraphQuery

/-- The column has a name, and is written as the name alone or with an origin that is not the
name. -/
def Column.From (Origin : String → Prop) (column : Column) : Prop :=
  column.name ≠ "" ∧ (column.text = column.name ∨
    ∃ origin, Origin origin ∧ origin ≠ column.name ∧ column.text = origin ++ " AS " ++ column.name)

def Column.WellFormed : Column → Prop := Column.From fun origin => origin ≠ ""

/-- The columns that a clause passes on, returns or yields. -/
def Clause.columns : Clause → List Column
  | .project _ _ columns | .yielding columns => columns
  | _ => []

/-! ## Origins -/

/-- The origin that a column of the use may be written with. -/
def Use.Origin (used : Use) (origin : String) : Prop :=
  used.qualified = some (.renamed origin) ∨
    used.qualified = some .expression ∧ used.found.expression = some origin

theorem Use.columnText_cases (used : Use) (name : String) :
    used.columnText name = name ∨ ∃ origin, used.Origin origin ∧ origin ≠ name ∧
      used.columnText name = origin ++ " AS " ++ name := by
  have hwritten : ∀ origin, used.Origin origin →
      (if origin = name then name else origin ++ " AS " ++ name) = name ∨
        ∃ other, used.Origin other ∧ other ≠ name ∧
          (if origin = name then name else origin ++ " AS " ++ name) =
            other ++ " AS " ++ name := by
    intro origin horigin
    by_cases h : origin = name
    · exact .inl (if_pos h)
    · exact .inr ⟨origin, horigin, h, if_neg h⟩
  unfold columnText
  split
  · next source hsource => exact hwritten source (.inl hsource)
  · next hexpression =>
      cases htext : used.found.expression with
      | none => exact .inl (if_pos rfl)
      | some text => exact hwritten text (.inr ⟨hexpression, htext⟩)
  · exact .inl (if_pos rfl)

theorem Resolve.column_from {mention : Mention} {known after : Vocabulary} {result : Column}
    (h : column mention known = .ok result after) :
    ∃ used later, known.scope.use mention = (.ok used, later) ∧ result.From used.Origin := by
  obtain ⟨used, later, name, hused, hreference, rfl⟩ := column_use h
  exact ⟨used, later, hused, Variable.ne_empty_of_reference? hreference,
    used.columnText_cases name⟩

theorem Column.From.imp {P Q : String → Prop} {column : Column} (h : column.From P)
    (hPQ : ∀ origin, P origin → Q origin) : column.From Q :=
  ⟨h.1, h.2.imp_right fun ⟨origin, horigin, hrest⟩ => ⟨origin, hPQ origin horigin, hrest⟩⟩

/-! ## Texts that are given -/

/-- No text that the mention gives its variable is empty. -/
def Mention.Worded (mention : Mention) : Prop :=
  mention.qualifier ≠ some "" ∧ mention.name ≠ some ""

instance (mention : Mention) : Decidable mention.Worded := inferInstanceAs (Decidable (_ ∧ _))

theorem Mention.Worded.qualification {mention : Mention} (h : mention.Worded) {text : String}
    {name : Option String} (hasked : mention.qualification? = some (text, name)) :
    text ≠ "" ∧ name ≠ some "" := by
  obtain ⟨hqualifier, hname⟩ := h
  unfold qualification? at hasked
  split at hasked
  · next hgiven =>
      cases hasked
      exact ⟨fun heq => hqualifier (heq ▸ hgiven), hname⟩
  · next hgiven =>
      cases hasked
      exact ⟨fun heq => hname (heq ▸ hgiven), nofun⟩
  · cases hasked

/-- The variable has no empty alias. -/
def Variable.Worded (v : Variable) : Prop := v.name ≠ some ""

theorem Variable.Worded.reference? {v : Variable} (h : v.Worded) (hexpression : v.hasExpression) :
    v.reference?.getD "" ≠ "" := by
  cases hname : v.name with
  | some name =>
      have hne : name ≠ "" := fun heq => h (hname.trans (congrArg some heq))
      have hreference : v.reference? = some name := by simp [Variable.reference?, hname, hne]
      simpa [hreference] using hne
  | none =>
      obtain ⟨text, htext, hne⟩ := Option.any_eq_true _ _ |>.mp hexpression
      have hne : text ≠ "" := by simpa using hne
      have hreference : v.reference? = some text := by
        simp [Variable.reference?, hname, htext, hne]
      simpa [hreference] using hne

theorem Mention.Worded.keeps {mention : Mention} (h : mention.Worded) :
    mention.Keeps Variable.Worded where
  blank := nofun
  beginning _ := by cases mention.identifier <;> nofun
  refresh k hscope hv := by
    unfold Scope.refresh
    split
    · split <;> exact hv
    · exact hv
  named hasked _ := fun heq => (h.qualification hasked).1 (Option.some.inj heq)
  expressed {text name v} hasked hv := by
    cases name with
    | none => exact hv
    | some given => exact (h.qualification hasked).2
  bound hv := hv

namespace Scope

variable {scope later : Scope} {slot slot' : Slot} {mention : Mention} {used : Use}

theorem get_modify (scope : Scope) (slot : Slot) (change : Variable → Variable) :
    (scope.modify slot change).2.get (scope.modify slot change).1 = change (scope.get slot) ∨
      (scope.modify slot change).2.get (scope.modify slot change).1 = {} := by
  cases slot with
  | registered k =>
      simp only [modify, get, at?_modifyAt, if_true]
      cases scope.at? k with
      | none => exact .inr rfl
      | some v => exact .inl rfl
  | detached held => exact .inl rfl

theorem Rebinds.get_expression {identifier : Identifier} {token : Token}
    (h : scope.Rebinds slot identifier token slot' later) :
    (later.get slot').expression = (scope.get slot).expression := by
  rw [h.place, get, h.at?, if_pos rfl]
  cases slot with
  | registered k =>
      simp only [register, get]
      cases scope.at? k <;> rfl
  | detached held => simp [register, get]

theorem bindBy_expression (h : scope.bindBy mention slot = .ok (slot', later)) :
    (later.get slot').expression = (scope.get slot).expression := by
  rcases bindBy_cases h with ⟨-, rfl, rfl⟩ | ⟨token, -, hrebinds⟩
  · rfl
  · exact hrebinds.get_expression

/-- A use that gives its variable an expression gives it the text that is asked for. -/
theorem use_expression (hused : scope.use mention = (.ok used, later))
    (hqualified : used.qualified = some .expression) {origin : String}
    (horigin : used.found.expression = some origin) :
    ∃ name, mention.qualification? = some (origin, name) := by
  obtain ⟨resolution, resolved, slot, changed, slot', -, hqualify, hbind, hfound⟩ := use_ok hused
  rw [hfound, bindBy_expression hbind] at horigin
  rw [hqualified] at hqualify
  rcases qualifyBy_ok hqualify with
    ⟨-, hnone, -, -⟩ | ⟨text, name, qualified, hasked, hsome, hgiven⟩
  · cases hnone
  · cases hsome
    rcases qualify_ok hgiven with ⟨-, -, hrenamed, -⟩ | ⟨-, -, before, hmodify, rfl⟩
    · cases hrenamed
    · have hget := get_modify resolved (resolved.slotFor mention resolution.slot) fun v =>
        { v with expression := some text, name := name <|> v.name }
      rw [hmodify] at hget
      rw [get_pin] at horigin
      rcases hget with hget | hget
      · rw [hget] at horigin
        cases horigin
        exact ⟨name, hasked⟩
      · rw [hget] at horigin
        cases horigin

/-- Where no variable has an empty alias and none is given an empty text, no origin is empty. -/
theorem Every.origin_ne_empty (h : scope.Every Variable.Worded) (hmention : mention.Worded)
    (hused : scope.use mention = (.ok used, later)) {origin : String}
    (horigin : used.Origin origin) : origin ≠ "" := by
  rcases horigin with hrenamed | ⟨hexpression, hfound⟩
  · have hhas := (h.use hmention.keeps).2 used (by rw [hused])
    obtain ⟨before, hbefore, hsome, rfl⟩ := hhas.source origin hrenamed
    exact hbefore.reference? hsome
  · obtain ⟨name, hasked⟩ := use_expression hused hexpression hfound
    exact (hmention.qualification hasked).1

end Scope

/-! ## Clauses -/

namespace Resolve

theorem exists_of_columns {items : List Mention} {columns : List Column}
    {known after : Vocabulary} (h : items.mapM column known = .ok columns after)
    {result : Column} (hresult : result ∈ columns) :
    ∃ moment ∈ moments (items.map .text) known, moment.result? column = some result := by
  have hmem : some result ∈
      (moments (items.map .text) known).map (Moment.result? · column) := by
    rw [columns_ok h]
    exact List.mem_map_of_mem hresult
  exact List.mem_map.mp hmem

theorem yields_no_columns {call : Call} (hproject : ∀ verb distinct items,
    call ≠ .project verb distinct items) (hyielding : ∀ items, call ≠ .yielding items) :
    Yields (fun clause => clause.columns = []) call.clause := by
  cases call with
  | project verb distinct items => exact absurd rfl (hproject verb distinct items)
  | yielding items => exact absurd rfl (hyielding items)
  | unwind list item => exact .next fun _ => .map fun _ => rfl
  | use _ | call _ | showCommand _ | rawText _ => exact .pure rfl
  | _ => exact .map fun _ => rfl

/-- Each column of a clause is what a use of its call results in. -/
theorem exists_of_clause {call : Call} {clause : Clause} {known after : Vocabulary}
    (h : call.clause known = .ok clause after) {result : Column}
    (hresult : result ∈ clause.columns) :
    ∃ moment ∈ moments call.sites known, moment.result? column = some result := by
  cases call with
  | project _ _ items | yielding items =>
      obtain ⟨columns, middle, hcolumns, hclause⟩ := bind_ok h
      cases hclause
      exact exists_of_columns hcolumns hresult
  | _ =>
      have hnone : clause.columns = [] :=
        yields_no_columns (fun _ _ _ heq => by cases heq) (fun _ heq => by cases heq) _ _ _ h
      rw [hnone] at hresult
      cases hresult

end Resolve

namespace Draft

/-- A property of all columns that good uses result in. -/
theorem appended_columns {Good : Moment → Prop} {P : Column → Prop}
    (hP : ∀ moment : Moment, Good moment → ∀ column,
      moment.result? Resolve.column = some column → P column) :
    AppendedBy Good fun clause => ∀ column ∈ clause.columns, P column where
  call c _ _ _ hclause hgood _ column hcolumn := by
    obtain ⟨moment, hmoment, hresult⟩ := Resolve.exists_of_clause hclause hcolumn
    exact hP moment (hgood moment hmoment) column hresult
  subquery _ _ := nofun
  forEach _ _ _ _ _ _ _ _ _ := nofun
  union _ _ _ := nofun

theorem upheld_worded : Upheld (Scope.Every Variable.Worded) fun moment =>
    moment.mention.Worded where
  empty := Scope.every_empty _
  use _ hscope hworded := (hscope.use hworded.keeps).1

end Draft

theorem Moment.column_from {moment : Moment} {column : Column}
    (h : moment.result? Resolve.column = some column) :
    ∃ used later, moment.known.scope.use moment.mention = (.ok used, later) ∧
      column.From used.Origin := by
  unfold result? at h
  split at h
  · next result after hresult =>
      cases h
      exact Resolve.column_from hresult
  · cases h

namespace Draft

/-! ## Queries -/

/-- In a draft without a fault every column has a name, and is written as its name or with an
origin that is not its name. If no mention of the program gives an empty text, no origin is
empty. -/
theorem columns_well_formed {catalog : Catalog} {settings : Settings} {steps : List Step}
    (hfault : (run steps { catalog, settings }).fault = none) :
    Everywhere Clause.bodies (fun clause => ∀ column ∈ clause.columns, column.From fun _ => True)
        (run steps { catalog, settings }).clauses ∧
      ((∀ site ∈ Step.sitesOfAll steps, site.mention.Worded) →
        Everywhere Clause.bodies (fun clause => ∀ column ∈ clause.columns, column.WellFormed)
          (run steps { catalog, settings }).clauses) := by
  constructor
  · have happended : AppendedBy (fun _ => True) fun clause =>
        ∀ column ∈ clause.columns, column.From fun _ => True := by
      refine appended_columns fun moment _ column hcolumn => ?_
      obtain ⟨used, later, -, hfrom⟩ := Moment.column_from hcolumn
      exact hfrom.imp fun _ _ => trivial
    exact run_everywhere_of_good _ happended steps (fun _ _ => trivial) everywhere_nil
  · intro hworded
    -- Without a fault every site of the program is used, and nothing else is.
    have hmentions := uses_of_exhausts { catalog, settings } (fun s _ => exhausts s)
      ((run_fault_eq_none_iff rfl).mp hfault)
    have hallowed : ∀ moment ∈ uses steps { catalog, settings }, moment.mention.Worded := by
      intro moment hmoment
      have hmention := List.mem_map_of_mem (f := Moment.mention) hmoment
      rw [hmentions] at hmention
      obtain ⟨site, hsite, hsame⟩ := List.mem_map.mp hmention
      exact hsame ▸ hworded site hsite
    have happended : AppendedBy (fun moment => moment.known.scope.Every Variable.Worded ∧
        moment.mention.Worded) fun clause => ∀ column ∈ clause.columns, column.WellFormed := by
      refine appended_columns fun moment ⟨hscope, hmention⟩ column hcolumn => ?_
      obtain ⟨used, later, hused, hfrom⟩ := Moment.column_from hcolumn
      exact hfrom.imp fun origin horigin => hscope.origin_ne_empty hmention hused horigin
    refine run_everywhere_of_good _ happended steps (fun moment hmoment => ?_) everywhere_nil
    obtain ⟨earlier, later, huses⟩ := List.append_of_mem hmoment
    refine ⟨upheld_worded.at_use _ (Scope.every_empty _) huses fun past hpast => ?_,
      hallowed moment hmoment⟩
    exact hallowed past (huses ▸ List.mem_append_left _ hpast)

/-- A match whose variable has no text, columns of all kinds, and blocks of all kinds. -/
def projectedSteps : List Step :=
  [.call (.pattern .matching [{ start := { identifier := .ofToken ⟨1⟩, label := some "Person" } }]),
    .call (.unwind (.raw "[1, 2]") { identifier := .ofToken ⟨1⟩, qualifier := some "n" }),
    .call (.project .passing true [{ identifier := .ofToken ⟨1⟩, name := some "m" },
      { identifier := .ofToken ⟨2⟩, qualifier := some "n.age", name := some "age" }]),
    .subquery [.call (.yielding [{ identifier := .name "label", name := some "l" }])],
    .union .all [[.call (.project .returning false
      [{ identifier := .raw "count(*)", qualifier := some "total" },
        { identifier := .name "x" }])]]]

theorem columns_well_formed_projectedSteps :
    (run projectedSteps {}).fault = none ∧
      Everywhere Clause.bodies (fun clause => ∀ column ∈ clause.columns, column.WellFormed)
        (run projectedSteps {}).clauses :=
  ⟨by decide, (columns_well_formed rfl).2 (by decide)⟩

/-- A token whose variable is given an empty expression along with a name. -/
def emptyOriginSteps : List Step :=
  [.call (.project .passing false
    [{ identifier := .ofToken ⟨1⟩, qualifier := some "", name := some "x" }])]

/-- Nothing fails, and the column is written without its origin. -/
theorem column_unoriginated_emptyOriginSteps :
    (run emptyOriginSteps {}).fault = none ∧
      Clause.textAll 0 (run emptyOriginSteps {}).clauses = "WITH  AS x" ∧
      ¬ Everywhere Clause.bodies (fun clause => ∀ column ∈ clause.columns, column.WellFormed)
        (run emptyOriginSteps {}).clauses := by
  refine ⟨by decide, by decide +kernel, fun h => ?_⟩
  have hcolumn : Column.WellFormed ⟨" AS x", "x", some ⟨1⟩⟩ :=
    (everywhere_iff.mp h _ (.head _)).1 _ (.head _)
  obtain ⟨-, hname | ⟨origin, hne, -, htext⟩⟩ := hcolumn
  · exact absurd hname (by decide)
  · have hlength : 5 = (origin ++ " AS " ++ "x").length := congrArg String.length htext
    have hparts : " AS ".length = 4 ∧ "x".length = 1 := ⟨rfl, rfl⟩
    rw [String.length_append, String.length_append, hparts.1, hparts.2] at hlength
    have hempty : origin.length = 0 := by omega
    exact hne (String.length_eq_zero_iff.mp hempty)

end Draft

end GraphQuery
