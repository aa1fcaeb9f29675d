import Mathlib.Logic.Function.Basic
import Mathlib.Data.List.Forall2

/- `net_server`: requests for keys below `/Net/`, answered from a table. Of the database there is the
   table `kv` and whether a statement can be prepared; of a request, the fields that are read. -/
namespace NetServer

abbrev MgStr := List UInt8

structure CString where
  bytes : List UInt8
  noNul : 0 ∉ bytes

structure Reply where
  version : String
  status : Nat
  reason : String
  contentType : Option String
  body : List UInt8

/-! ### The table -/

inductive StepResult where
  | ok
  | row
  | done
  deriving DecidableEq

/-- The open database: whether its statements can be prepared, and the table `kv`. -/
structure Db where
  prepares : Bool
  kv : MgStr → Option CString

def Db.delete (db : Db) (key : MgStr) : Db × StepResult :=
  ({ db with kv := Function.update db.kv key none }, .done)

/-! ### The operations -/

section Server
variable (mgGetHttpVar : MgStr → MgStr → Nat → CString)

end Server
end NetServer
