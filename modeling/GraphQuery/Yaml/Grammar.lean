import GraphQuery.Yaml.Event

/-!
# How tokens group

Which tokens may follow which, and the events they amount to. What may come next depends on the
open collections only, so each token is read once. A node that is left out, and a collection that
no token closes, end before the token that shows it.
-/

namespace GraphQuery.Yaml

/-! ## What is due -/

/-- A place for a node. -/
inductive Slot
  | document
  /-- After the dash in a block sequence. -/
  | item
  /-- After the dash in a sequence that no token opens, and none closes. -/
  | bareItem
  | key
  | value
  | flowItem
  /-- The key of an item of a flow sequence that is a mapping with one entry. -/
  | pairKey
  | pairValue
  | flowKey
  /-- A key without a mark in front, which has no value. -/
  | loneKey
  | flowValue
  deriving DecidableEq, Repr

/-- What has been said of a node before it begins. -/
structure Properties where
  anchor : Option String := none
  tag : Option Uri := none
  deriving DecidableEq, Repr

def Properties.isEmpty (properties : Properties) : Bool :=
  properties.anchor.isNone && properties.tag.isNone

/-- What is due at one level of nesting. -/
inductive Level
  | node (slot : Slot) (properties : Properties)
  /-- The next item of a block sequence, or its end. -/
  | items
  | bareItems
  /-- The next entry of a block mapping, or its end. -/
  | entries
  /-- The value of a key, if it has one. -/
  | mapped
  /-- An item of a flow sequence, or its end. -/
  | flowItem
  /-- The comma after an item, or the end. -/
  | flowItems
  | pairMapped
  | pairEnd
  /-- An entry of a flow mapping, or its end. -/
  | flowEntry
  /-- The comma after an entry, or the end. -/
  | flowEntries
  | flowMapped
  | loneMapped
  /-- Nothing but marks that the document is over. -/
  | ended
  deriving DecidableEq, Repr

namespace Slot

/-- What is due after a node in the slot. -/
def next : Slot → Level
  | document => .ended
  | item => .items
  | bareItem => .bareItems
  | key => .mapped
  | value => .entries
  | flowItem => .flowItems
  | pairKey => .pairMapped
  | pairValue => .pairEnd
  | flowKey => .flowMapped
  | loneKey => .loneMapped
  | flowValue => .flowEntries

/-- Block collections stand only in a block. -/
def inBlock : Slot → Bool
  | document | item | bareItem | key | value => true
  | _ => false

/-- Whether a sequence here need not be further in than what is around it. -/
def allowsBare : Slot → Bool
  | key | value => true
  | _ => false

/-- Whether `token` goes on with a node that has some properties already. -/
def takes (slot : Slot) (properties : Properties) : Token → Bool
  | .scalar _ _ | .flowSequence | .flowMapping => true
  | .blockSequence | .blockMapping => slot.inBlock
  | .item => slot.allowsBare
  | .anchor _ => properties.anchor.isNone
  | .tag _ => properties.tag.isNone
  | .reference _ => properties.isEmpty
  | _ => false

/-- Whether `token` shows that nothing is written in the slot. -/
def isEmptyBefore : Slot → Token → Bool
  | document, .documentEnd => true
  | item, .item | item, .blockEnd => true
  | bareItem, .item | bareItem, .key | bareItem, .value | bareItem, .blockEnd => true
  | key, .key | key, .value | key, .blockEnd => true
  | value, .key | value, .value | value, .blockEnd => true
  | pairValue, .comma | pairValue, .flowSequenceEnd => true
  | flowKey, .value | flowKey, .comma | flowKey, .flowMappingEnd => true
  | flowValue, .comma | flowValue, .flowMappingEnd => true
  | _, _ => false

end Slot

/-! ## Reading on -/

structure Grouping where
  events : Array Event := #[]
  /-- The levels of nesting, the innermost first. -/
  levels : List Level

namespace Grouping

def absent (properties : Properties) : Event :=
  .scalar properties.anchor ⟨.plain, properties.tag, ""⟩

/-- Ends a node of which nothing more is written. -/
def settleNode (group : Grouping) (token : Token) : Grouping :=
  match group.levels with
  | .node slot properties :: outer =>
      if slot.takes properties token then group
      else if !properties.isEmpty || slot.isEmptyBefore token then
        ⟨group.events.push (absent properties), slot.next :: outer⟩
      else group
  | _ => group

/-- Ends a sequence that no token closes. -/
def settleItems (group : Grouping) (token : Token) : Grouping :=
  match group.levels with
  | .bareItems :: outer =>
      if token = .item then group else ⟨group.events.push .close, outer⟩
  | _ => group

/-- Ends an entry whose key has no value, and a mapping that has a single entry. -/
def settleEntry (group : Grouping) (token : Token) : Grouping :=
  match group.levels with
  | .mapped :: outer =>
      if token = .value then group else ⟨group.events.push (absent {}), .entries :: outer⟩
  | .flowMapped :: outer =>
      if token = .value then group else ⟨group.events.push (absent {}), .flowEntries :: outer⟩
  | .loneMapped :: outer => ⟨group.events.push (absent {}), .flowEntries :: outer⟩
  | .pairMapped :: outer =>
      if token = .value then group
      else ⟨(group.events.push (absent {})).push .close, .flowItems :: outer⟩
  | .pairEnd :: outer => ⟨group.events.push .close, .flowItems :: outer⟩
  | _ => group

/-- Reads a token of a node. After a question mark in a flow sequence, a mark that shows the key to
be left out is used up by that. -/
def readNode (handles : List (String × Uri)) (events : Array Event) (slot : Slot)
    (properties : Properties) (outer : List Level) (token : Token) : Option Grouping :=
  match token with
  | .value | .comma | .flowSequenceEnd =>
      if slot = .pairKey then some ⟨events.push (absent {}), slot.next :: outer⟩ else none
  | token =>
      if !slot.takes properties token then none
      else match token with
        | .anchor name =>
            some ⟨events, .node slot { properties with anchor := some name } :: outer⟩
        | .tag tag => do
            let uri ← tag.resolve? handles
            return ⟨events, .node slot { properties with tag := some uri } :: outer⟩
        | .reference name => some ⟨events.push (.reference name), slot.next :: outer⟩
        | .scalar style text =>
            let scalar : Scalar := ⟨style, properties.tag, text⟩
            some ⟨events.push (.scalar properties.anchor scalar), slot.next :: outer⟩
        | .flowSequence =>
            some ⟨events.push (.sequence properties.anchor), .flowItem :: slot.next :: outer⟩
        | .flowMapping =>
            some ⟨events.push (.mapping properties.anchor), .flowEntry :: slot.next :: outer⟩
        | .blockSequence =>
            some ⟨events.push (.sequence properties.anchor), .items :: slot.next :: outer⟩
        | .blockMapping =>
            some ⟨events.push (.mapping properties.anchor), .entries :: slot.next :: outer⟩
        | .item =>
            some ⟨events.push (.sequence properties.anchor),
              .node .bareItem {} :: slot.next :: outer⟩
        | _ => none

/-- Reads a token, once all that ends before it has ended. -/
def read (handles : List (String × Uri)) (group : Grouping) (token : Token) : Option Grouping :=
  let events := group.events
  match group.levels, token with
  | .node slot properties :: outer, token => readNode handles events slot properties outer token
  | .items :: outer, .item => some ⟨events, .node .item {} :: outer⟩
  | .bareItems :: outer, .item => some ⟨events, .node .bareItem {} :: outer⟩
  | .entries :: outer, .key => some ⟨events, .node .key {} :: outer⟩
  | .mapped :: outer, .value => some ⟨events, .node .value {} :: outer⟩
  | .flowItem :: outer, .key =>
      some ⟨events.push (.mapping none), .node .pairKey {} :: outer⟩
  | .flowEntry :: outer, .key => some ⟨events, .node .flowKey {} :: outer⟩
  | .pairMapped :: outer, .value => some ⟨events, .node .pairValue {} :: outer⟩
  | .flowMapped :: outer, .value => some ⟨events, .node .flowValue {} :: outer⟩
  | .flowItems :: outer, .comma => some ⟨events, .flowItem :: outer⟩
  | .flowEntries :: outer, .comma => some ⟨events, .flowEntry :: outer⟩
  | .items :: outer, .blockEnd | .entries :: outer, .blockEnd
  | .flowItem :: outer, .flowSequenceEnd | .flowItems :: outer, .flowSequenceEnd
  | .flowEntry :: outer, .flowMappingEnd | .flowEntries :: outer, .flowMappingEnd =>
      some ⟨events.push .close, outer⟩
  | .flowItem :: outer, token => readNode handles events .flowItem {} outer token
  | .flowEntry :: outer, token => readNode handles events .loneKey {} outer token
  | .ended :: outer, .documentEnd => some ⟨events, .ended :: outer⟩
  | _, _ => none

def step (handles : List (String × Uri)) (group : Grouping) (token : Token) : Option Grouping :=
  (((group.settleNode token).settleItems token).settleEntry token).read handles token

/-- The events, if the document may end here. -/
def finish (group : Grouping) : Option (List Event) :=
  match group.levels with
  | [.node .document properties] => some (group.events.push (absent properties)).toList
  | [.ended] => some group.events.toList
  | _ => none

/-- The events of a document whose tokens these are. -/
def events? (handles : List (String × Uri)) (tokens : List Token) : Option (List Event) := do
  (← tokens.foldlM (step handles) { levels := [.node .document {}] }).finish

end Grouping

/-! ## Directives -/

/-- What the directives in front of a document have said. -/
structure Prologue where
  versioned : Bool := false
  handles : List (String × Uri) := []

/-- The version is given once, as 1.1 or 1.2, and no handle is declared twice. -/
def Prologue.add (prologue : Prologue) : Directive → Option Prologue
  | .version major minor =>
      if prologue.versioned || major ≠ 1 || (minor ≠ 1 && minor ≠ 2) then none
      else some { prologue with versioned := true }
  | .handle name uri =>
      if (prologue.handles.lookup name).isSome then none
      else some { prologue with handles := prologue.handles ++ [(name, uri)] }

def isDirective : Token → Bool
  | .directive _ => true
  | _ => false

def Prologue.ofTokens (tokens : List Token) : Option Prologue :=
  tokens.foldlM (fun prologue token => match token with
    | .directive directive => prologue.add directive
    | _ => some prologue) {}

/-- The events of the only document in a text. Where directives stand in front, so must the mark
that begins it. -/
def events? (tokens : List Token) : Option (List Event) := do
  let directives := tokens.takeWhile isDirective
  let prologue ← Prologue.ofTokens directives
  match tokens.dropWhile isDirective with
  | .documentStart :: rest => Grouping.events? prologue.handles rest
  | .documentEnd :: _ => none
  | rest => if directives.isEmpty then Grouping.events? prologue.handles rest else none

end GraphQuery.Yaml
