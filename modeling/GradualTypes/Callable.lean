import GradualTypes.Hierarchy
import GradualTypes.Ty.Basic

/-!
# Callability

Whether the values of a type can be called.  A string may name a function, and
an array may hold a target and the name of a method, so both may be callable
unless their value rules it out.
-/

namespace GradualTypes
namespace Ty

def mayNameMethod : Ty -> Bool
  | literal (.text s) => s != ""
  | keyword .string => true
  | keyword .mixed => true
  | inter _ => true
  | union .plain _ => true
  | _ => false

/-- Whether the entries of a shape may be a target and the name of a method. -/
def mayBePair : List (Entry Ty) -> Bool
  | [target, method] =>
      target.key == .int 0 && method.key == .int 1 && !method.optional &&
        mayNameMethod method.value
  | _ => false

mutual

def callability (h : Hierarchy) : Ty -> Tristate
  | keyword .callable => .yes
  | keyword .mixed => .maybe
  | keyword .string => .maybe
  | keyword .object => .maybe
  | literal (.text s) => if s = "" then .no else .maybe
  | object cls _ => h.isInvokable cls
  | this cls => h.isInvokable cls
  | array _ _ => .maybe
  | shape entries => if mayBePair entries then .maybe else .no
  | union _ members => .unanimous (callabilities h members)
  | inter members => .decisive (callabilities h members)
  | accessory _ => .maybe
  | _ => .no

def callabilities (h : Hierarchy) : List Ty -> List Tristate
  | [] => []
  | t :: rest => callability h t :: callabilities h rest

end

theorem callabilities_eq_map (h : Hierarchy) (ts : List Ty) :
    callabilities h ts = ts.map (callability h) := by
  induction ts with
  | nil => rfl
  | cons t rest ih => simp [callabilities, ih]

end Ty
end GradualTypes
