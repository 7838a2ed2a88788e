import DdlCatalog.Schema.Table

/-!
Edits that report what they do. A policy says what becomes of a refused edit: it is passed on or
noted and left out.
-/

namespace DdlCatalog

inductive Policy
  | lenient
  | strict
  deriving DecidableEq

inductive Event
  | applying (kind : Statement.Kind)
  | tableExists (table : String)
  | ignored (error : ReferenceError)
  | keyRemoved (table column key : String)
  | primaryKeyRemoved (table column : String)
  | inlineKeyReplaced (table : String)
  | declaredKeyReplaced (table : String)
  deriving DecidableEq

namespace Event

def level : Event → String
  | .applying _ | .tableExists _ => "DEBUG"
  | .ignored _ => "WARN"
  | _ => "TRACE"

def message : Event → String
  | .applying _ => "applying statement"
  | .tableExists _ => "table exists, skipping"
  | .ignored _ => "ignoring unresolved reference"
  | .keyRemoved _ _ _ => "removed construct left without columns"
  | .primaryKeyRemoved _ _ => "removed primary key left without columns"
  | .inlineKeyReplaced _ => "inline primary key replaced"
  | .declaredKeyReplaced _ => "declared primary key replaced"

def details : Event → List (String × String)
  | .applying kind => [("statement", kind.id)]
  | .tableExists table => [("table", table)]
  | .ignored error => [("error", error.message)]
  | .keyRemoved table column key => [("column", column), ("construct", key), ("table", table)]
  | .primaryKeyRemoved table column => [("column", column), ("table", table)]
  | .inlineKeyReplaced table => [("table", table)]
  | .declaredKeyReplaced table => [("table", table)]

end Event

/-- The end of an edit: its result, the state it leaves, also where it is refused, and what it
reported. -/
structure Outcome (σ α : Type) where
  result : Except ReferenceError α
  state : σ
  events : List Event

/-- A change of a state that can be refused on the way. -/
def Edit (σ α : Type) := σ → Outcome σ α

namespace Edit

variable {σ α β : Type}

def run (e : Edit σ α) (s : σ) : Outcome σ α := e s

protected def pure (a : α) : Edit σ α := fun s => ⟨.ok a, s, []⟩

protected def bind (e : Edit σ α) (f : α → Edit σ β) : Edit σ β := fun s =>
  let first := e.run s
  match first.result with
  | .error r => ⟨.error r, first.state, first.events⟩
  | .ok a =>
    let second := (f a).run first.state
    ⟨second.result, second.state, first.events ++ second.events⟩

instance : Monad (Edit σ) where
  pure := Edit.pure
  bind := Edit.bind

def get : Edit σ σ := fun s => ⟨.ok s, s, []⟩

def report (event : Event) : Edit σ Unit := fun s => ⟨.ok (), s, [event]⟩

def refuse (error : ReferenceError) : Edit σ α := fun s => ⟨.error error, s, []⟩

/-- An edit that is refused as a whole or not at all, with what it reports if it is not. -/
def step (change : σ → Except ReferenceError σ) (events : σ → List Event) : Edit σ Unit := fun s =>
  match change s with
  | .error e => ⟨.error e, s, []⟩
  | .ok s' => ⟨.ok (), s', events s⟩

def quiet (change : σ → Except ReferenceError σ) : Edit σ Unit := step change fun _ => []

def modify (change : σ → σ) : Edit σ Unit := quiet fun s => .ok (change s)

def check (test : σ → Except ReferenceError α) : Edit σ α := fun s => ⟨test s, s, []⟩

def emit (events : σ → List Event) : Edit σ Unit := fun s => ⟨.ok (), s, events s⟩

/-- The result of an edit as a value. A refusal does not end what follows; a change made before it stays. -/
def attempt (e : Edit σ α) : Edit σ (Except ReferenceError α) := fun s =>
  let o := e.run s
  ⟨.ok o.result, o.state, o.events⟩

/-- An edit whose refusal is treated as the policy says. -/
def under (policy : Policy) (e : Edit σ Unit) : Edit σ Unit := fun s =>
  let o := e.run s
  match policy, o.result with
  | .lenient, .error r => ⟨.ok (), o.state, o.events ++ [.ignored r]⟩
  | _, _ => o

/-- One edit for each item, in order, up to the first that is refused. -/
def forEach (edit : α → Edit σ Unit) : List α → Edit σ Unit
  | [] => pure ()
  | a :: r => do
    edit a
    forEach edit r

end Edit

end DdlCatalog
