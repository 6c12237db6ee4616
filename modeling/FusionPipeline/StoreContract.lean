import FusionPipeline.Library.Simulation
import FusionPipeline.StateStore

/-! What the state stores promise to their workers. -/

namespace FusionPipeline

open Interleaving

def StoreCall.ttl : StoreCall → Duration
  | setNx _ _ ttl => ttl
  | compareAndSet _ _ _ ttl => ttl

def Store.expire (store : Store) (key : String) : Store :=
  Function.update store key none

theorem foldl_expire (keys : List String) (store : Store) (key : String) :
    List.foldl Store.expire store keys key = if key ∈ keys then none else store key := by
  induction keys generalizing store with
  | nil => simp
  | cons first keys ih =>
      rw [List.foldl_cons, ih, Store.expire]
      by_cases same : key = first
      · simp [same]
      · simp [same, Function.update_of_ne]

section Contract

variable {Call Input Result : Type}

/-- Each operation takes one atomic step on the unexpired values; it may be failed, and any key may
expire at any time. -/
def contract (operation : Call → StoreOp)
    (start : Input → Program Call (fun request => (operation request).Reply) Result) :
    Machine Store Input Call (fun request => (operation request).Reply) Result Ending String where
  start
  answer store request ending := store.answer (operation request) ending
  drift := Store.expire

end Contract

end FusionPipeline
