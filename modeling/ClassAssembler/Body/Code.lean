import ClassAssembler.Body.Layout

/-!
# The code of a body

A body is completed, its values are given homes, and it is laid out and recorded.
-/

namespace ClassAssembler
namespace Body

def superCall (body : Body) : Operation :=
  .simple (.insns [.invoke .special (.noArgInit body.superClass)]) [⟨0, []⟩] none

def completeInit (body : Body) : Except Fault Body :=
  match body.init, body.hasReceiver with
  | some ⟨false, _⟩, true =>
      if body.settings.superCall then
        let call := body.superCall
        .ok { body with
          scopes := body.scopes.modify 0 fun scope =>
            { scope with operations := #[call] ++ scope.operations } }
      else .error (.missingInit body.method)
  | _, _ => .ok body

def completeEnd (body : Body) (recorder : Recorder) : Except Fault Recorder :=
  if recorder.reachable then
    if body.method.type.returns.isNone && body.settings.voidReturn then
      .ok (recorder.branch (.ret none))
    else .error (.missingTerminal body.method)
  else .ok recorder

def toCode (body : Body) : Except Fault (Code × Notice) := do
  let body ← body.completeInit
  let allocation := body.allocate
  let layout ← body.layOut allocation.homes
  match layout.record (.start layout.nextLabel body.firstFree) with
  | .error fault _ => .error (.code fault)
  | .ok () recorder =>
      let recorder ← body.completeEnd recorder
      match recorder.finish with
      | .error fault => .error (.code fault)
      | .ok code =>
          .ok (code, .sealed body.method code.instructionCount code.ranges.length
            allocation.maxLocals allocation.kept)

end Body
end ClassAssembler
