import Ejr.FromJs
import Ejr.ToJs

/-!
# The trampoline

The C function `create_trampoline` (src/ejr_cpp_api.cpp) puts behind every
registered callback: it converts the arguments, finds the callback under the
name kept in its function data, calls it and converts the result.

Mirroring notes:
- The function data are a BigInt holding the address of the `EasyJSR` and the
  callback's name. The address finds the same `EasyJSR` again; only the name
  and the `callbacks` map stay.
- A callback is a function of its arguments; what it does to the runtime
  besides is not part of a single call here.
-/

namespace Ejr

open Lib

/-- `DynCallback`. -/
abbrev DynCallback := List JSArg → JSArg

/-- The loop `cpp_args.push_back(from_js(ctx, argv[i], false))`. -/
def trampolineArgs (depth : Nat) : List JSValue → EngineM (List JSArg)
  | [] => pure []
  | v :: argv => do
    let a ← fromJs depth v false
    let cppArgs ← trampolineArgs depth argv
    pure (a :: cppArgs)

/-- The trampoline: `callbacks` is the map, `funcData1` the stored name. -/
def trampoline (depth : Nat) (callbacks : Bytes → Option DynCallback) (funcData1 : JSValue)
    (argv : List JSValue) : EngineM JSValue := do
  let cppArgs ← trampolineArgs depth argv
  let cbnameCstr ← jsToCString funcData1.val
  let cbName ← stdString cbnameCstr
  jsFreeCString cbnameCstr
  match callbacks cbName with
  | none => own .undefined
  | some cb => toJs (cb cppArgs)

/-- The callback that runs is the one under the stored name. -/
theorem wp_trampoline {depth : Nat} {callbacks : Bytes → Option DynCallback} {u : JSString}
    {r : RefId} {argv : List JSValue} {s : Rt} {cb : DynCallback}
    (hcb : callbacks (cstr (toCStringLen u)) = some cb) {Q : JSValue → Rt → Prop}
    {X : Stop → Rt → Prop} :
    wp (trampoline depth callbacks ⟨.string u, r⟩ argv) s Q X ↔
      wp (trampolineArgs depth argv) s (fun cppArgs t => wp (toJs (cb cppArgs))
        (((t.ownedC (some (toCStringLen u))).log [.readC t.fresh]).log [.freeC t.fresh]) Q X) X := by
  simp only [trampoline, wp_bind, wp_jsToCString, Heap.text_string, Outcome.get?_value,
    Option.map_some, wp_stdString_some, wp_jsFreeCString, hcb, Rt.raise_value, Option.toList_some,
    List.map_cons, List.map_nil]

end Ejr
