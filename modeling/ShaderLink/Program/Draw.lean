import ShaderLink.Program

/-!
# Drawing

Drawing brings a device up to date with a program. If hooks, outputs or objects changed since the
last draw, the program is linked again; if that gives other sources than before, these are uploaded,
which makes the device forget all values. Then the value of every emitted uniform and attribute is
sent, unless the device was sent that value of that variable under that name already.

A device may refuse what it is sent. A draw that fails to link, or whose sources are refused, leaves
the program as it was drawn before and due for linking.
-/

namespace ShaderLink

/-- What a device is sent. -/
inductive Event where
  | upload (vertex fragment : String)
  | uniform (name : String) (value : Value)
  | vertexAttribute (name : String) (value : Value)
deriving DecidableEq

/-- A device with states in `σ`, which takes an event or refuses it with a reason. -/
abbrev Device (σ : Type) := Event → σ → Except String σ

/-- An operation on a program and a device. -/
abbrev DrawM (σ : Type) := EStateM ProgramError (Program × σ)

namespace Program

variable {σ : Type}

/-- Sends an event. -/
def send (device : Device σ) (event : Event) : DrawM σ Unit := do
  let (p, d) ← get
  match device event d with
  | .ok d => set (p, d)
  | .error reason => throw (.device reason)

/-- Links, and uploads sources that are not those of the last draw. -/
def relink (device : Device σ) (g : Graph) : DrawM σ Unit := do
  let (p, d) ← get
  match (link g).run p with
  | .error e p =>
    set (p, d)
    throw e
  | .ok linked p =>
    set (p, d)
    unless p.linked.map (·.sources) = some linked.sources do
      send device
        (.upload (linked.sources.vertex.getD "") (linked.sources.fragment.getD ""))
      -- the device has forgotten all values
      modify fun (p, d) => ({ p with sent := ∅ }, d)
    modify fun (p, d) =>
      ({ p with linked := some linked, dirty := false, generation := some g.generation }, d)

/-- The event that sends the value of a variable under a name. Varyings and constants are not
sent. -/
def valueEvent? (v : Variable) (name : String) : Option Event :=
  match v.qualifier, v.value with
  | some .uniform, some value => some (.uniform name value)
  | some .vertexAttribute, some value => some (.vertexAttribute name value)
  | _, _ => none

/-- Sends the value of an object, if it has one that the device was not sent. -/
def sendValue (device : Device σ) (g : Graph) (id : ObjectId) : DrawM σ Unit := do
  let (p, _) ← get
  match g.find? id, p.linker.names[id]? with
  | some (.var v), some name =>
    match valueEvent? v name with
    | some event =>
      unless p.sent[name]? = some (id, v.state) do
        send device event
        modify fun (p, d) => ({ p with sent := p.sent.insert name (id, v.state) }, d)
    | none => return ()
  | _, _ => return ()

/-- Draws a program. -/
def draw (device : Device σ) (g : Graph) : DrawM σ Unit := do
  let (p, _) ← get
  if p.dirty ∨ p.generation ≠ some g.generation then relink device g
  let (p, _) ← get
  if let some linked := p.linked then
    linked.objects.forM (sendValue device g)

end Program

end ShaderLink
