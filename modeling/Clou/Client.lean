import Mathlib.Algebra.Group.Nat.Defs
import Mathlib.Data.List.Induction
import Clou.OptionFold

/-! The client side of the monitor connection. Each message goes out as a length and a body,
in two writes, either of which the stream may accept only in part. -/

namespace Clou

structure Client where
  connected : Bool
  accepted : List UInt8
  writes : Nat
  deriving DecidableEq

namespace Client

def opened : Client := ⟨true, [], 0⟩

def good (client : Client) : Bool := client.connected

/-- The stream is closed once: an assertion demands that it is open. -/
def disconnect (client : Client) : Option Client :=
  if client.good then some { client with connected := false } else none

def htonl (n : Nat) : List UInt8 := [24, 16, 8, 0].map fun shift => UInt8.ofNat (n / 2 ^ shift)

def frame (msg : List UInt8) : List UInt8 := htonl msg.length ++ msg

section

-- the number of bytes that the stream takes of each write, by the number of the write
variable (taken : Nat → Nat)

/-- A write of elements of the given size. It asserts that the stream is open, and closes
it when some element was not accepted whole. -/
def write (size : Nat) (buf : List UInt8) (client : Client) : Option Client :=
  if client.good then
    let bytes := buf.take (taken client.writes)
    let client := { client with accepted := client.accepted ++ bytes, writes := client.writes + 1 }
    if bytes.length / size ≠ buf.length / size then disconnect client else some client
  else none

def send (msg : List UInt8) (client : Client) : Option Client :=
  if client.good then do
    let client ← write taken 4 (htonl msg.length) client
    write taken 1 msg client
  else some client

def sendAll (client : Client) (msgs : List (List UInt8)) : Option Client :=
  msgs.foldlM (fun client msg => send taken msg client) client

/-- The number of bytes in a write: lengths and bodies alternate. -/
def needed (msgs : List (List UInt8)) (index : Nat) : Nat :=
  if index % 2 = 0 then 4 else (msgs[index / 2]?.getD []).length

/-- No write of a length is the first to fail. -/
def LengthsAccepted (msgs : List (List UInt8)) : Prop :=
  ∀ i < msgs.length, (∀ index < 2 * i, needed msgs index ≤ taken index) → 4 ≤ taken (2 * i)

end

variable {taken : Nat → Nat}

variable {client : Client} {msg : List UInt8}

@[simp] theorem length_htonl (n : Nat) : (htonl n).length = 4 := rfl

theorem write_opened (opened : client.good = true) {size : Nat} {buf : List UInt8}
    (whole : size ∣ buf.length) :
    write taken size buf client = some
      ⟨decide (buf.length ≤ taken client.writes),
        client.accepted ++ buf.take (taken client.writes), client.writes + 1⟩ := by
  have opened' : client.connected = true := opened
  rw [write, if_pos opened]
  by_cases all : buf.length ≤ taken client.writes
  · simp [all, List.take_of_length_le all, opened']
  · have part : (buf.take (taken client.writes)).length < buf.length := by
      rw [List.length_take]
      omega
    have fewer := Nat.div_lt_div_of_lt_of_dvd whole part
    rw [if_pos (Nat.ne_of_lt fewer), disconnect]
    simp [all, good, opened']

theorem send_closed (closed : client.good = false) : send taken msg client = some client := by
  rw [send, closed]
  rfl

theorem send_opened (opened : client.good = true) (length : 4 ≤ taken client.writes) :
    send taken msg client = some
      ⟨decide (msg.length ≤ taken (client.writes + 1)),
        client.accepted ++ (htonl msg.length ++ msg.take (taken (client.writes + 1))),
        client.writes + 2⟩ := by
  have first : write taken 4 (htonl msg.length) client =
      some ⟨true, client.accepted ++ htonl msg.length, client.writes + 1⟩ := by
    rw [write_opened opened (by simp), length_htonl, decide_eq_true length,
      List.take_of_length_le (by simpa using length)]
  rw [send, if_pos opened, first, Option.bind_eq_bind, Option.bind_some,
    write_opened rfl (Nat.one_dvd _), List.append_assoc]

/-- When the length is not accepted, the body is written to a closed stream. -/
theorem send_length_lost (opened : client.good = true) (lost : taken client.writes < 4) :
    send taken msg client = none := by
  rw [send, if_pos opened, write_opened opened (by simp), Option.bind_eq_bind,
    Option.bind_some, write, if_neg]
  simp only [good, length_htonl]
  intro accepted
  exact Nat.not_le.mpr lost (of_decide_eq_true accepted)

theorem sendAll_closed (closed : client.good = false) (msgs : List (List UInt8)) :
    sendAll taken client msgs = some client := by
  induction msgs with
  | nil => rfl
  | cons msg msgs ih =>
    rw [sendAll, List.foldlM_cons, send_closed closed, Option.bind_eq_bind, Option.bind_some]
    exact ih

theorem sendAll_append (client : Client) (msgs rest : List (List UInt8)) :
    sendAll taken client (msgs ++ rest) =
      (sendAll taken client msgs).bind fun client => sendAll taken client rest := by
  rw [sendAll, List.foldlM_append]
  rfl

theorem sendAll_snoc (client : Client) (msgs : List (List UInt8)) (msg : List UInt8) :
    sendAll taken client (msgs ++ [msg]) = (sendAll taken client msgs).bind (send taken msg) := by
  rw [sendAll_append]
  congr 1
  funext client
  simp [sendAll]

section

variable {msgs : List (List UInt8)} {msg : List UInt8}

theorem needed_length (i : Nat) : needed msgs (2 * i) = 4 := by
  rw [needed, if_pos (by omega)]

theorem needed_body (i : Nat) : needed msgs (2 * i + 1) = (msgs[i]?.getD []).length := by
  rw [needed, if_neg (by omega), show (2 * i + 1) / 2 = i by omega]

theorem needed_append {rest : List (List UInt8)} {index : Nat} (earlier : index < 2 * msgs.length) :
    needed (msgs ++ rest) index = needed msgs index := by
  rw [needed, needed, List.getElem?_append_left (by omega)]

theorem all_needed_snoc :
    (∀ index < 2 * (msgs ++ [msg]).length, needed (msgs ++ [msg]) index ≤ taken index) ↔
      (∀ index < 2 * msgs.length, needed msgs index ≤ taken index) ∧ 4 ≤ taken (2 * msgs.length) ∧
        msg.length ≤ taken (2 * msgs.length + 1) := by
  have first : needed (msgs ++ [msg]) (2 * msgs.length) = 4 := needed_length _
  have last : needed (msgs ++ [msg]) (2 * msgs.length + 1) = msg.length := by
    simp [needed_body]
  rw [List.length_append, List.length_singleton]
  constructor
  · intro all
    refine ⟨fun index earlier => ?_, ?_, ?_⟩
    · rw [← needed_append earlier]
      exact all index (by omega)
    · rw [← first]
      exact all _ (by omega)
    · rw [← last]
      exact all _ (by omega)
  · intro all index bound
    by_cases earlier : index < 2 * msgs.length
    · rw [needed_append earlier]
      exact all.1 index earlier
    · rcases (show index = 2 * msgs.length ∨ index = 2 * msgs.length + 1 by omega) with here | here
      · rw [here, first]
        exact all.2.1
      · rw [here, last]
        exact all.2.2

theorem lengthsAccepted_snoc (accepted : LengthsAccepted taken (msgs ++ [msg])) :
    LengthsAccepted taken msgs ∧
      ((∀ index < 2 * msgs.length, needed msgs index ≤ taken index) → 4 ≤ taken (2 * msgs.length)) := by
  have length : (msgs ++ [msg]).length = msgs.length + 1 := by simp
  have upto (i : Nat) (bound : i ≤ msgs.length)
      (all : ∀ index < 2 * i, needed msgs index ≤ taken index) : 4 ≤ taken (2 * i) := by
    refine accepted i (by omega) fun index earlier => ?_
    rw [needed_append (by omega)]
    exact all index earlier
  exact ⟨fun i bound => upto i (by omega), upto msgs.length (Nat.le_refl _)⟩

end

/-- While every write is accepted whole, the stream holds the frames. -/
theorem sendAll_of_all {msgs : List (List UInt8)}
    (all : ∀ index < 2 * msgs.length, needed msgs index ≤ taken index) :
    sendAll taken opened msgs = some ⟨true, (msgs.map frame).flatten, 2 * msgs.length⟩ := by
  induction msgs using List.reverseRecOn with
  | nil => rfl
  | append_singleton msgs msg ih =>
    obtain ⟨earlier, length, body⟩ := all_needed_snoc.mp all
    rw [sendAll_snoc, ih earlier, Option.bind_some, send_opened rfl length, decide_eq_true body,
      List.take_of_length_le body]
    simp [frame, Nat.mul_add]

/-- When no length is the first to be lost, the run ends, and the stream has accepted the
beginning of the frames; all of them unless it was closed. -/
theorem sendAll_spec {msgs : List (List UInt8)} (accepted : LengthsAccepted taken msgs) :
    (∀ index < 2 * msgs.length, needed msgs index ≤ taken index) ∨
      ∃ client, sendAll taken opened msgs = some client ∧ client.good = false ∧
        client.accepted <+: (msgs.map frame).flatten := by
  induction msgs using List.reverseRecOn with
  | nil => exact .inl (by simp)
  | append_singleton msgs msg ih =>
    obtain ⟨earlier, length⟩ := lengthsAccepted_snoc accepted
    have more : (msgs.map frame).flatten <+: ((msgs ++ [msg]).map frame).flatten := by
      rw [List.map_append, List.flatten_append]
      exact List.prefix_append ..
    rcases ih earlier with all | ⟨client, sent, closed, bytes⟩
    · by_cases body : msg.length ≤ taken (2 * msgs.length + 1)
      · exact .inl (all_needed_snoc.mpr ⟨all, length all, body⟩)
      · refine .inr ⟨⟨false, (msgs.map frame).flatten ++ (htonl msg.length ++
          msg.take (taken (2 * msgs.length + 1))), 2 * msgs.length + 2⟩, ?_, rfl, ?_⟩
        · rw [sendAll_snoc, sendAll_of_all all, Option.bind_some, send_opened rfl (length all),
            decide_eq_false body]
        · rw [List.map_append, List.flatten_append, List.map_singleton, List.flatten_singleton]
          exact List.prefix_append_right_inj _ |>.mpr
            ((List.prefix_append_right_inj _).mpr (List.take_prefix ..))
    · exact .inr ⟨client, by rw [sendAll_snoc, sent, Option.bind_some, send_closed closed], closed,
        bytes.trans more⟩

/-- A run whose messages are all sent or dropped without a failed assertion: what the
stream accepted is a beginning of the frames, and once it is closed nothing changes. -/
def Unbroken (taken : Nat → Nat) (msgs : List (List UInt8)) : Prop :=
  ∃ client, sendAll taken opened msgs = some client ∧
    client.accepted <+: (msgs.map frame).flatten ∧
    ∀ before after, msgs = before ++ after → ∀ earlier, sendAll taken opened before = some earlier →
      earlier.good = false → earlier = client

/-- A lost monitor leaves the client unbroken exactly when the first write that fails, if
any does, is the body of a message. -/
theorem unbroken_iff_lengths (taken : Nat → Nat) (msgs : List (List UInt8)) :
    Unbroken taken msgs ↔ LengthsAccepted taken msgs := by
  constructor
  · intro unbroken i bound all
    obtain ⟨client, sent, _⟩ := unbroken
    by_contra lost
    have split : msgs = msgs.take i ++ msgs[i] :: msgs.drop (i + 1) := by
      rw [← List.drop_eq_getElem_cons bound, List.take_append_drop]
    have count : (msgs.take i).length = i := by
      rw [List.length_take]
      omega
    have earlier : ∀ index < 2 * (msgs.take i).length, needed (msgs.take i) index ≤ taken index := by
      intro index before
      have same : needed (msgs.take i ++ msgs[i] :: msgs.drop (i + 1)) index =
          needed (msgs.take i) index := needed_append before
      rw [← same, ← split]
      exact all index (by omega)
    rw [split, sendAll_append, sendAll_of_all earlier, Option.bind_some, sendAll, List.foldlM_cons,
      send_length_lost rfl (by rw [count]; exact Nat.lt_of_not_le lost)] at sent
    simp at sent
  · intro accepted
    have ended : ∃ client, sendAll taken opened msgs = some client ∧
        client.accepted <+: (msgs.map frame).flatten := by
      rcases sendAll_spec accepted with all | ⟨client, sent, _, bytes⟩
      · exact ⟨_, sendAll_of_all all, List.prefix_rfl⟩
      · exact ⟨client, sent, bytes⟩
    obtain ⟨client, sent, bytes⟩ := ended
    refine ⟨client, sent, bytes, fun before after split earlier sent' closed => ?_⟩
    rw [split, sendAll_append, sent', Option.bind_some, sendAll_closed closed] at sent
    exact Option.some.inj sent

/-- The stream refuses the first length. -/
theorem first_length_breaks : sendAll (fun _ => 0) opened [[1]] = none ∧ ¬ Unbroken (fun _ => 0) [[1]] := by
  have aborts : sendAll (fun _ => 0) opened [[1]] = none := by decide
  refine ⟨aborts, fun unbroken => ?_⟩
  obtain ⟨client, sent, _⟩ := unbroken
  rw [aborts] at sent
  simp at sent

end Client

end Clou
