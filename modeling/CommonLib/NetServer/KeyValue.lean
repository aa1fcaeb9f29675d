import CommonLib.NetServer.Server

/- The server as a key-value store. -/
namespace NetServer

inductive Request where
  | get (key : MgStr)
  | put (key : MgStr) (value : CString)
  | delete (key : MgStr)

def Deleted (key : MgStr) : List Request → Prop
  | [] => False
  | .get _ :: past => Deleted key past
  | .put other _ :: past => other ≠ key ∧ Deleted key past
  | .delete other :: past => if other = key then ∃ value,
    .put key value ∈ past else Deleted key past

def stored (key : MgStr) : List Request → Option CString
  | [] => none
  | .put other value :: past => if other = key then some value else stored key past
  | _ :: past => stored key past

section Handler
variable (mgGetHttpVar : MgStr → MgStr → Nat → CString) {decode : MgStr → Option CString}
  {hm : HttpMessage} (past : List Request)

end Handler

end NetServer
