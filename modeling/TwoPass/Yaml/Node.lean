import TwoPass.Yaml.Token

/-! The tree that the tokens of a YAML text describe: scalars, lists, and maps whose entries keep
their order. A text holds at most one document. -/

namespace TwoPass.Yaml

inductive Node
  | scalar (s : Scalar)
  | list (items : List Node)
  | map (entries : List (Node × Node))

namespace Node

def absent : Node :=
  .scalar .absent

/-- A scalar of which only the tag is written, when there is one. -/
def tagged? (tag : Option Text) : Option Node :=
  tag.map fun name => .scalar { Scalar.absent with tag := some name }

def lacksItem : List Token → Bool
  | .entry :: _ | .blockEnd :: _ => true
  | _ => false

def lacksPart : List Token → Bool
  | .key :: _ | .value :: _ | .blockEnd :: _ => true
  | _ => false

/-- Whether a value is not written in a flow that a token closes. -/
def lacksFlowValue (close : Token) : List Token → Bool
  | t :: _ => t = .comma || t = close
  | [] => false

def lacksFlowKey (close : Token) : List Token → Bool
  | .value :: _ => true
  | ts => lacksFlowValue close ts

/-- Where a list or a map of a flow continues: after the first part a comma is required. -/
def afterComma (first : Bool) : List Token → Option (List Token)
  | .comma :: ts => if first then some (.comma :: ts) else some ts
  | ts => if first then some ts else none

mutual

/-- Reads a node. A block may begin here if `block` says so, and a list that is not indented
further than the key before it if `flush` does. -/
def node (block flush : Bool) : Nat → List Token → Option (Node × List Token)
  | 0, _ => none
  | fuel + 1, .tag name :: ts => content (some name) block flush fuel ts
  | fuel + 1, ts => content none block flush fuel ts

def content (tag : Option Text) (block flush : Bool) :
    Nat → List Token → Option (Node × List Token)
  | 0, _ => none
  | _ + 1, .scalar s :: ts => some (.scalar { s with tag := tag }, ts)
  | fuel + 1, .flowList :: ts => (flowItems true fuel ts).map fun (is, ts) => (.list is, ts)
  | fuel + 1, .flowMap :: ts => (flowEntries true fuel ts).map fun (es, ts) => (.map es, ts)
  | fuel + 1, .entry :: ts =>
    if flush then (flushItems fuel (.entry :: ts)).map fun (is, ts) => (.list is, ts)
    else (tagged? tag).map fun n => (n, .entry :: ts)
  | fuel + 1, .blockList :: ts =>
    if block then (blockItems fuel ts).map fun (is, ts) => (.list is, ts)
    else (tagged? tag).map fun n => (n, .blockList :: ts)
  | fuel + 1, .blockMap :: ts =>
    if block then (blockEntries fuel ts).map fun (es, ts) => (.map es, ts)
    else (tagged? tag).map fun n => (n, .blockMap :: ts)
  | _ + 1, ts => (tagged? tag).map fun n => (n, ts)

def orAbsent (isAbsent block flush : Bool) : Nat → List Token → Option (Node × List Token)
  | 0, _ => none
  | fuel + 1, ts => if isAbsent then some (absent, ts) else node block flush fuel ts

def blockItems : Nat → List Token → Option (List Node × List Token)
  | fuel + 1, .entry :: ts => do
    let (i, ts) ← orAbsent (lacksItem ts) true false fuel ts
    let (is, ts) ← blockItems fuel ts
    some (i :: is, ts)
  | _ + 1, .blockEnd :: ts => some ([], ts)
  | _, _ => none

def flushItems : Nat → List Token → Option (List Node × List Token)
  | fuel + 1, .entry :: ts => do
    let (i, ts) ← orAbsent (lacksItem ts || lacksPart ts) true false fuel ts
    let (is, ts) ← flushItems fuel ts
    some (i :: is, ts)
  | _ + 1, ts => some ([], ts)
  | 0, _ => none

def blockEntries : Nat → List Token → Option (List (Node × Node) × List Token)
  | fuel + 1, .key :: ts => do
    let (k, ts) ← orAbsent (lacksPart ts) true true fuel ts
    let (v, ts) ← blockValue fuel ts
    let (es, ts) ← blockEntries fuel ts
    some ((k, v) :: es, ts)
  | _ + 1, .blockEnd :: ts => some ([], ts)
  | _, _ => none

def blockValue : Nat → List Token → Option (Node × List Token)
  | fuel + 1, .value :: ts => orAbsent (lacksPart ts) true true fuel ts
  | _ + 1, ts => some (absent, ts)
  | 0, _ => none

def flowItems (first : Bool) : Nat → List Token → Option (List Node × List Token)
  | _ + 1, .flowListEnd :: ts => some ([], ts)
  | fuel + 1, ts => do
    match ← afterComma first ts with
    | .flowListEnd :: ts => some ([], ts)
    | .key :: ts =>
      let (k, ts) ← flowItemKey fuel ts
      let (v, ts) ← flowValue .flowListEnd fuel ts
      let (is, ts) ← flowItems false fuel ts
      some (.map [(k, v)] :: is, ts)
    | ts =>
      let (i, ts) ← node false false fuel ts
      let (is, ts) ← flowItems false fuel ts
      some (i :: is, ts)
  | 0, _ => none

/-- The key of a map of one entry that is an item of a list. When it is not written, the token that
shows so is used up. -/
def flowItemKey : Nat → List Token → Option (Node × List Token)
  | fuel + 1, ts =>
    if lacksFlowKey .flowListEnd ts then some (absent, ts.tail) else node false false fuel ts
  | 0, _ => none

def flowEntries (first : Bool) : Nat → List Token → Option (List (Node × Node) × List Token)
  | _ + 1, .flowMapEnd :: ts => some ([], ts)
  | fuel + 1, ts => do
    match ← afterComma first ts with
    | .flowMapEnd :: ts => some ([], ts)
    | .key :: ts =>
      let (k, ts) ← orAbsent (lacksFlowKey .flowMapEnd ts) false false fuel ts
      let (v, ts) ← flowValue .flowMapEnd fuel ts
      let (es, ts) ← flowEntries false fuel ts
      some ((k, v) :: es, ts)
    | ts =>
      let (k, ts) ← node false false fuel ts
      let (es, ts) ← flowEntries false fuel ts
      some ((k, absent) :: es, ts)
  | 0, _ => none

def flowValue (close : Token) : Nat → List Token → Option (Node × List Token)
  | fuel + 1, .value :: ts => orAbsent (lacksFlowValue close ts) false false fuel ts
  | _ + 1, ts => some (absent, ts)
  | 0, _ => none

end

def document (fuel : Nat) : List Token → Option (Node × List Token)
  | [] => some (absent, [])
  | .documentStart :: ts => some (absent, .documentStart :: ts)
  | .documentEnd :: ts => some (absent, .documentEnd :: ts)
  | ts => node true false fuel ts

/-- The only document of a text; an empty text holds an absent scalar. Reading a token takes a few
calls, each of which uses fuel. -/
def ofTokens? (ts : List Token) : Option Node :=
  let fuel := 4 * ts.length + 8
  let reading :=
    match ts with
    | [] => some (absent, [])
    | .documentStart :: rest => document fuel rest
    | _ => node true false fuel ts
  reading.bind fun (n, rest) => if rest.all (· = .documentEnd) then some n else none

def ofText? (source : Text) : Option Node :=
  (tokens? source).bind ofTokens?

mutual

def depth : Node → Nat
  | .scalar _ => 0
  | .list items => depthOfItems items + 1
  | .map entries => depthOfEntries entries + 1

def depthOfItems : List Node → Nat
  | [] => 0
  | n :: ns => max (depth n) (depthOfItems ns)

def depthOfEntries : List (Node × Node) → Nat
  | [] => 0
  | (k, v) :: es => max (max (depth k) (depth v)) (depthOfEntries es)

end

mutual

def allScalars (p : Scalar → Bool) : Node → Bool
  | .scalar s => p s
  | .list items => allItemScalars p items
  | .map entries => allEntryScalars p entries

def allItemScalars (p : Scalar → Bool) : List Node → Bool
  | [] => true
  | n :: ns => allScalars p n && allItemScalars p ns

def allEntryScalars (p : Scalar → Bool) : List (Node × Node) → Bool
  | [] => true
  | (k, v) :: es => allScalars p k && allScalars p v && allEntryScalars p es

end

end Node

end TwoPass.Yaml
