import TwoPass.Fault

/-! Registers and their table, which lists them by increasing code. No two registers share a name
or a code. -/

namespace TwoPass

structure Register where
  name : Text
  code : Code
deriving DecidableEq

/-- The registers in the order of their codes. -/
structure RegisterTable where
  entries : List Register
deriving DecidableEq

namespace RegisterTable

def empty : RegisterTable :=
  ⟨[]⟩

def code? (table : RegisterTable) (name : Text) : Option Code :=
  (table.entries.find? (·.name = name)).map (·.code)

def name? (table : RegisterTable) (code : Code) : Option Text :=
  (table.entries.find? (·.code = code)).map (·.name)

/-- A register can be added when neither its name nor its code is taken. -/
def accepts (table : RegisterTable) (r : Register) : Bool :=
  table.entries.all fun e => e.name ≠ r.name && e.code ≠ r.code

def placeIn (r : Register) : List Register → List Register
  | [] => [r]
  | e :: es => if e.code < r.code then e :: placeIn r es else r :: e :: es

def insert (table : RegisterTable) (r : Register) : Except Fault RegisterTable :=
  if table.accepts r then .ok ⟨placeIn r table.entries⟩ else .error (.registerConflict r.name)

/-- Adds registers one by one; the first that conflicts is the fault. -/
def ofList (rs : List Register) : Except Fault RegisterTable :=
  rs.foldlM insert empty

def size (table : RegisterTable) : Nat :=
  table.entries.length

theorem mem_placeIn {r e : Register} {es : List Register} :
    e ∈ placeIn r es ↔ e = r ∨ e ∈ es := by
  induction es with
  | nil => simp [placeIn]
  | cons d ds ih =>
    by_cases h : d.code < r.code
    · simp only [placeIn, h, if_true, List.mem_cons, ih]
      constructor <;> (rintro (h | h | h) <;> simp [h])
    · simp [placeIn, h]

theorem accepts_iff {table : RegisterTable} {r : Register} :
    table.accepts r = true ↔ ∀ e ∈ table.entries, e.name ≠ r.name ∧ e.code ≠ r.code := by
  simp [accepts]

end RegisterTable

end TwoPass
