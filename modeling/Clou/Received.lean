import Clou.Client

/-! What the monitor reads of the messages that a client sends. -/

namespace Clou.Monitor

open Client

section

-- whether the body of a message can be parsed
variable (parseFromArray : List UInt8 → Bool)

end

variable {parseFromArray : List UInt8 → Bool} {msg : List UInt8} {stream rest : List UInt8}

section

variable {msgs : List (List UInt8)} (small : ∀ msg ∈ msgs, msg.length < 2 ^ 32)
  (parses : ∀ msg ∈ msgs, parseFromArray msg = true)

include small parses

end

end Clou.Monitor
