import CnotRouting.Devices
import CnotRouting.TokenReading

/-! # Device texts

The text of a device opens with the number of its qubits, the rows of its graph and the rows of its
costs. The routes follow, row by row, each between its marker and its cost. Read back, the opening
is taken line by line, and the routes are a run of words in any layout. A route is accepted if its
steps use edges of the graph, cost what both cost entries say, and realise the CNOT of its pair. -/

namespace CnotRouting

def routeText (entry : Nat × Nat × Route) : String :=
  routeMarker entry.1 entry.2.1 ++ " =>\n" ++ entry.2.2.text

def readMark (line v w : Nat) (word : String) : Except FormatError Bool :=
  if word = "X" then
    if v = w then .error ⟨line, .selfLoop v⟩ else .ok true
  else if word = "-" then .ok false
  else .error ⟨line, .invalidMark word⟩

def readCost (line v w : Nat) (word : String) : Except FormatError Nat := do
  let c ← Token.numeral ⟨line, word⟩ .cost
  require (v = w → c = 0) line (.diagonalCost v c)
  return c

/-- Reads the rows of the listed qubits, entry by entry. -/
def readMatrix {α : Type} (last : Nat) (kind : MatrixRow) (size : Nat)
    (readEntry : (line v w : Nat) → String → Except FormatError α) :
    (qubits : List Nat) → List TextRow → Except FormatError (List α × List TextRow)
  | [], rows => .ok ([], rows)
  | _ :: _, [] => .error ⟨last, .endOfText (.row kind)⟩
  | v :: qubits, row :: rows => do
    require (row.words.length = size) row.line (.rowLength kind row.words.length size)
    let entries ← row.words.zipIdx.mapM fun (word, w) => readEntry row.line v w word
    let (more, rest) ← readMatrix last kind size readEntry qubits rows
    return (entries ++ more, rest)

def readSize : List TextRow → Except FormatError (Nat × List TextRow)
  | [] => .error ⟨0, .endOfText (.numeral .qubitCount)⟩
  | ⟨line, [word]⟩ :: rows =>
    match numeral? countBound word with
    | none => .error ⟨line, .invalidNumeral .qubitCount word⟩
    | some n => do
      require (n ≤ sizeLimit) line (.tooManyQubits n sizeLimit)
      return (n, rows)
  | ⟨line, _⟩ :: _ => .error ⟨line, .severalCounts⟩

def readQubits (last size : Nat) : (count : Nat) → List Token → Except FormatError (List Nat)
  | 0, _ => .ok []
  | _ + 1, [] => .error ⟨last, .endOfText (.numeral .qubit)⟩
  | count + 1, t :: rest => do
    let q ← t.qubit size
    let more ← readQubits last size count rest
    return q :: more

/-- Accepts a step whose edges are all in the graph. -/
def requireEdges (g : CouplingGraph) (line : Nat) (s : Step) : Except FormatError Unit :=
  match s.edges.find? fun e => !g.hasEdge e.1 e.2 with
  | none => .ok ()
  | some (v, w) => .error ⟨line, .missingEdge s v w⟩

def opensCost (word : String) : Bool := "cost".toList.isPrefixOf word.toList

/-- Reads steps up to the cost line, and returns what follows its first word. -/
def readSteps (last : Nat) (g : CouplingGraph) :
    List Token → Except FormatError (Route × List Token)
  | [] => .error ⟨last, .endOfText .stepOrCost⟩
  | t :: rest =>
    if opensCost t.word then .ok ([], rest)
    else match StepKind.ofToken? t.word with
      | none => .error ⟨t.line, .unknownStep t.word⟩
      | some kind => do
        let operands ← readQubits last g.size kind.arity rest
        let s := Step.ofOperands kind operands
        requireEdges g t.line s
        let (more, rest) ← readSteps last g (rest.drop kind.arity)
        return (s :: more, rest)
termination_by tokens => tokens.length
decreasing_by
  simp only [List.length_drop, List.length_cons]
  omega

/-- Reads the route of a pair whose entry among the costs is `expected`. -/
def readRoute (last : Nat) (g : CouplingGraph) (v w expected : Nat) (tokens : List Token) :
    Except FormatError (Route × List Token) := do
  let (t, rest) ← takeToken last (.marker v w) tokens
  require (t.word = routeMarker v w) t.line (.otherMarker v w t.word)
  let rest ← takeKeyword last "=>" rest
  let (route, rest) ← readSteps last g rest
  let rest ← takeKeyword last "=" rest
  let (line, cost, rest) ← takeNumeral last .routeCost rest
  require (cost = expected) line (.costOffRow v w cost expected)
  require (route.cost = cost) line (.costOffSteps v w route.cost cost)
  require (route.realizes v w) line (.notRealized v w)
  return (route, rest)

/-- Reads the routes of the pairs with their costs. Pairs on the diagonal take no tokens. -/
def readRoutes (last : Nat) (g : CouplingGraph) :
    List ((Nat × Nat) × Nat) → List Token → Except FormatError (List Route × List Token)
  | [], tokens => .ok ([], tokens)
  | ((v, w), expected) :: pairs, tokens =>
    if v = w then do
      let (more, rest) ← readRoutes last g pairs tokens
      return ([] :: more, rest)
    else do
      let (route, rest) ← readRoute last g v w expected tokens
      let (more, rest) ← readRoutes last g pairs rest
      return (route :: more, rest)

def requireEnd : List Token → Except FormatError Unit
  | [] => .ok ()
  | t :: _ => .error ⟨t.line, .trailingToken t.word⟩

namespace Device

def text (d : Device) : String :=
  s!"{d.size}\n" ++ d.graph.text ++ d.table.text ++ String.join (d.table.entries.map routeText)

/-- The text of a device whose routes belong to pairs. -/
def save (d : Device) : Except RoutingError String := do
  let _ ← d.routes
  return d.text

def parse (text : String) : Except FormatError Device := do
  let rows := (textRows text).filter (·.words ≠ [])
  let last := lastLine rows
  let (size, rows) ← readSize rows
  let (marks, rows) ← readMatrix last .graph size readMark (List.range size) rows
  let (costs, rows) ← readMatrix last .cost size readCost (List.range size) rows
  let g : CouplingGraph := ⟨size, marks.toArray⟩
  let (routes, rest) ← readRoutes last g ((pairsBelow size).zip costs) (rowTokens rows)
  requireEnd rest
  return ⟨g, .ofRoutes size routes⟩

def load (bytes : ByteArray) : Except RoutingError Device := do
  let text ← decodeText bytes
  (parse text).mapError .format

/-- The device that some bytes encode, or the old one if they encode none. -/
def reload (d : Device) (bytes : ByteArray) : Device :=
  match load bytes with
  | .ok loaded => loaded
  | .error _ => d

end Device

end CnotRouting
