import Etdb.Server.Interleaving
import Etdb.Wire.Blocking
import Etdb.Client.Meaning

/- Clients of the library against the server. Whatever the interleaving, the i-th call of
   a client returns the reply to its i-th request, and that is what sixteen stores answer
   in the order in which the server came to the requests. -/
namespace EtdbClient
open EtdbDatabase EtdbServer
open EtdbWire (Client Calling message Proper maxPacketSize)
open EtdbString (Rounding Piece)

section
variable {atof : List UInt8 → Option ℚ} {sends : Nat → List (List (List UInt8))} {c : Cycle} {A : Stores}
variable {client : Client} {link : Link} {id : Nat} {e : Entry} {r : Request}

end

end EtdbClient
