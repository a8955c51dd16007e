import ThreeWay.Yaml.Token

/-!
# YAML nodes

The single document of a YAML text as a node: a scalar, a sequence or a mapping. An alias stands for the
node that its anchor marks; inside that very node it stands for itself, since the node is not
finished there.

## Main definitions

* `YamlNode`: A node.
* `YamlNode.parse?`: The document that a text writes, if it writes one.
-/

namespace ThreeWay

/-- A node of a YAML document. -/
inductive YamlNode where
  | scalar (text : String) (style : YamlStyle) (tag : Option String)
  | sequence (items : List YamlNode)
  | mapping (pairs : List (YamlNode × YamlNode))
  | enclosing
deriving Inhabited

namespace YamlNode

/-- Where nothing is written. -/
def blank : YamlNode :=
  .scalar "" .plain none

/-- What is known while tokens are taken: the rest of them, the nodes that anchors mark, and what tag
    handles stand for. -/
structure Context where
  tokens : List YamlToken
  anchors : List (String × YamlNode)
  handles : List (String × String)

/-- A computation that takes tokens and may fail. -/
abbrev Taker := StateT Context Option

/-- The next token, which stays in place. -/
def peek : Taker (Option YamlToken) := do
  return (← get).tokens.head?

/-- Take the next token. -/
def take : Taker Unit :=
  modify fun c => { c with tokens := c.tokens.tail }

/-- Take a token that must come next. -/
def expect (t : YamlToken) : Taker Unit := do
  if (← peek) = some t then take else failure

/-- Take a token if it comes next, and tell whether it did. -/
def accept (t : YamlToken) : Taker Bool := do
  if (← peek) = some t then
    take
    return true
  else return false

/-- Whether the next token is one of some. -/
def nextIn (ts : List YamlToken) : Taker Bool := do
  match ← peek with
  | some t => return ts.contains t
  | none => return false

/-- Mark a node with an anchor. A later mark of the same name counts. -/
def mark (anchor : Option String) (node : YamlNode) : Taker Unit :=
  match anchor with
  | some name => modify fun c => { c with anchors := (name, node) :: c.anchors }
  | none => return ()

/-- The full name of a tag. -/
def resolveTag (handle suffix : String) : Taker String := do
  if handle = "" then return suffix
  match (← get).handles.lookup handle with
  | some target => return target ++ suffix
  | none => failure

/-- The anchor and the tag in front of a node, in either order. -/
def readProperties : Taker (Option String × Option String) := do
  match ← peek with
  | some (.anchor name) =>
    take
    match ← peek with
    | some (.tag handle suffix) =>
      take
      return (some name, some (← resolveTag handle suffix))
    | _ => return (some name, none)
  | some (.tag handle suffix) =>
    take
    let tag ← resolveTag handle suffix
    match ← peek with
    | some (.anchor name) =>
      take
      return (some name, some tag)
    | _ => return (none, some tag)
  | _ => return (none, none)

mutual

/-- A node. A block may open here only if `block` holds, and a sequence may go on without being indented
    only if `loose` holds. -/
def readNode (block loose : Bool) : Nat → Taker YamlNode
  | 0 => failure
  | n + 1 => do
    if let some (.alias name) ← peek then
      take
      match (← get).anchors.lookup name with
      | some node => return node
      | none => failure
    let (anchor, tag) ← readProperties
    let collect (read : Taker YamlNode) : Taker YamlNode := do
      -- An alias inside the node may name the node itself. It is refused where it is used.
      mark anchor .enclosing
      let node ← read
      mark anchor node
      return node
    match ← peek with
    | some (.scalar text style) =>
      take
      let node := .scalar text style tag
      mark anchor node
      return node
    | some .flowSequence =>
      take
      collect (.sequence <$> readFlowItems true n)
    | some .flowMapping =>
      take
      collect (.mapping <$> readFlowPairs true n)
    | some .entry =>
      -- No token opens a sequence that is not indented: its first entry comes at once.
      if loose then collect (.sequence <$> readLooseItems n) else orBlank anchor tag
    | some .blockSequence =>
      if block then
        take
        collect (.sequence <$> readBlockItems n)
      else orBlank anchor tag
    | some .blockMapping =>
      if block then
        take
        collect (.mapping <$> readBlockPairs n)
      else orBlank anchor tag
    | _ => orBlank anchor tag

/-- An empty node, which needs an anchor or a tag. -/
def orBlank (anchor tag : Option String) : Taker YamlNode := do
  -- Whoever allows nothing at all to be written asks `readNodeUnless`.
  if anchor = none ∧ tag = none then failure
  let node := .scalar "" .plain tag
  mark anchor node
  return node

/-- A node, or an empty one where one of some tokens comes next. -/
def readNodeUnless (stops : List YamlToken) (block loose : Bool) : Nat → Taker YamlNode
  | 0 => failure
  | n + 1 => do
    if ← nextIn stops then return blank else readNode block loose n

/-- The entries of an indented sequence, up to and with its end. -/
def readBlockItems : Nat → Taker (List YamlNode)
  | 0 => failure
  | n + 1 => do
    if ← accept .blockEnd then return []
    expect .entry
    let item ← readNodeUnless [.entry, .blockEnd] true false n
    return item :: (← readBlockItems n)

/-- The entries of a sequence that is not indented. -/
def readLooseItems : Nat → Taker (List YamlNode)
  | 0 => failure
  | n + 1 => do
    if ← accept .entry then
      let item ← readNodeUnless [.entry, .key, .value, .blockEnd] true false n
      return item :: (← readLooseItems n)
    else return []

/-- The keys and values of a block, up to and with its end. -/
def readBlockPairs : Nat → Taker (List (YamlNode × YamlNode))
  | 0 => failure
  | n + 1 => do
    if ← accept .blockEnd then return []
    expect .key
    let stops := [YamlToken.key, .value, .blockEnd]
    let key ← readNodeUnless stops true true n
    let value ← if ← accept .value then readNodeUnless stops true true n else pure blank
    return (key, value) :: (← readBlockPairs n)

/-- The items of a sequence in brackets, up to and with its end. -/
def readFlowItems (first : Bool) : Nat → Taker (List YamlNode)
  | 0 => failure
  | n + 1 => do
    if ← accept .flowSequenceEnd then return []
    if !first then expect .flowEntry
    -- A comma may stand behind the last item.
    if ← accept .flowSequenceEnd then return []
    if ← accept .key then
      let key ← readNodeUnless [.value, .flowEntry, .flowSequenceEnd] false false n
      let value ←
        if ← accept .value then readNodeUnless [.flowEntry, .flowSequenceEnd] false false n
        else pure blank
      -- A key inside brackets writes a mapping of one pair.
      return .mapping [(key, value)] :: (← readFlowItems false n)
    let item ← readNode false false n
    return item :: (← readFlowItems false n)

/-- The keys and values of a mapping in braces, up to and with its end. -/
def readFlowPairs (first : Bool) : Nat → Taker (List (YamlNode × YamlNode))
  | 0 => failure
  | n + 1 => do
    if ← accept .flowMappingEnd then return []
    if !first then expect .flowEntry
    if ← accept .flowMappingEnd then return []
    if ← accept .key then
      let key ← readNodeUnless [.value, .flowEntry, .flowMappingEnd] false false n
      let value ←
        if ← accept .value then readNodeUnless [.flowEntry, .flowMappingEnd] false false n
        else pure blank
      return (key, value) :: (← readFlowPairs false n)
    let key ← readNode false false n
    -- A key inside braces may stand without a value.
    return (key, blank) :: (← readFlowPairs false n)

end

/-- The directives in front of a document, at most `n`. Each may stand there once. -/
def readDirectives : Nat → Bool → Taker Unit
  | 0, _ => failure
  | n + 1, versioned => do
    match ← peek with
    | some .versionDirective =>
      if versioned then failure
      take
      readDirectives n true
    | some (.tagDirective handle target) =>
      let c ← get
      if (c.handles.lookup handle).isSome then failure
      set { c with handles := (handle, target) :: c.handles }
      take
      readDirectives n versioned
    | _ => return ()

/-- The handles that need no directive. -/
def usualHandles : List (String × String) :=
  [("!", "!"), ("!!", "tag:yaml.org,2002:")]

/-- Give the usual handles a meaning where no directive did. -/
def addUsualHandles : Taker Unit :=
  modify fun c => { c with handles := c.handles ++ usualHandles }

/-- Take the marks after a document, at most `n`. -/
def readEndMarks : Nat → Taker Unit
  | 0 => failure
  | n + 1 => do
    if ← accept .documentEnd then readEndMarks n

/-- Whether the next token is a directive or the start of a document. -/
def atExplicitDocument : Taker Bool := do
  match ← peek with
  | some .versionDirective | some (.tagDirective _ _) | some .documentStart => return true
  | _ => return false

/-- The only document of a text of at most `n` tokens; an empty text holds an empty node. -/
def readDocument (n : Nat) : Taker YamlNode := do
  if (← peek).isNone then return blank
  if ← atExplicitDocument then
    readDirectives (n + 1) false
    addUsualHandles
    expect .documentStart
    let empty := (← peek).isNone || (← atExplicitDocument) || (← peek) = some .documentEnd
    let node ← if empty then pure blank else readNode true false (2 * n + 2)
    readEndMarks (n + 1)
    return node
  else
    addUsualHandles
    let node ← readNode true false (2 * n + 2)
    readEndMarks (n + 1)
    return node

/-- The document that a text writes, if it writes one and nothing after it. -/
def parse? (text : List Char) : Option YamlNode := do
  let tokens ← YamlToken.ofText? text
  match ← (readDocument tokens.length).run ⟨tokens, [], []⟩ with
  | (node, ⟨[], _, _⟩) => some node
  | _ => none

end YamlNode

end ThreeWay
