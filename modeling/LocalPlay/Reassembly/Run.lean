import LocalPlay.Reassembly.Table

/-! Runs of a table: what is done to it, and what each step answers. -/
namespace LocalPlay.Reassembly

/-- A step that may change a table. -/
inductive Op where
  | insert (packet : Packet) (now : Nat)
  | sweep (now : Nat)
  | clear

/-- The answer to a step. -/
inductive Outcome where
  | inserted (result : Except SessionError (Option Bytes))
  | swept (expired : List SessionError)
  | cleared

namespace Table

/-- Do one step. -/
def step (t : Table) : Op → Outcome × Table
  | .insert packet now =>
    let (result, t) := t.insert packet now
    (.inserted result, t)
  | .sweep now =>
    let (expired, t) := t.sweep now
    (.swept expired, t)
  | .clear => (.cleared, t.clear)

/-- Do one step after the other. -/
def run (t : Table) : List Op → List Outcome × Table
  | [] => ([], t)
  | op :: rest =>
    let (outcome, t) := t.step op
    let (outcomes, t) := t.run rest
    (outcome :: outcomes, t)

end Table
end LocalPlay.Reassembly
