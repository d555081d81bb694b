import Bebop.Swift.Router
import Bebop.TypeScript.Router

/-!
# Bebop — what interceptors guard

In TypeScript the handlers and the built-in logic are the operation of a chain, so nothing
can start them but the innermost `proceed`. In Swift they follow the chain: they start when
the outermost interceptor returns, whether or not it has proceeded.
-/

namespace Bebop.Rpc

open Interception
open Transition

variable {Text Payload : Type} [DecidableEq Text]

section

/-- A Swift router with one interceptor and one unary method. -/
def oneInterceptor : Swift.Rpc.Router String String where
  methods := fun methodId => if methodId = 7 then some .unary else none
  interceptors := 1
  discoveryEnabled := true
  maxBatchSize := 1
  allowUnauthenticatedFutureOwners := false
  hasFutureStore := false
  discoveryResponse := ""
  decode := ⟨fun _ => .error ⟨.internal, ""⟩, fun _ => .error ⟨.internal, ""⟩,
    fun _ => .error ⟨.internal, ""⟩, fun _ => .error ⟨.internal, ""⟩⟩

open Swift.Rpc (RouterCode RouterCall RpcContext)

def oneCall : RouterCall String String := .unary 7 "" (.new 7 ∅ none 0)

def oneChain : RouterCode String String :=
  .guarded (.ret (.success [] ∅)) fun _ => .perform (.handler 7) .ret

theorem resumes_oneChain : (oneInterceptor.serve oneCall).Resumes oneChain := .passed _ _

end

end Bebop.Rpc
