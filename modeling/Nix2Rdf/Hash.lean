import Nix2Rdf.Nix
import Nix2Rdf.Lib.Framing

/-!
# Content hashing

Everything content-addressed uses SHA-256, printed as lowercase hex.
-/

namespace Nix2Rdf

/-- The hash of an ordered sequence of items with an unambiguous separator. -/
def hashItems (x : Extern) (items : List (List UInt8)) : String := x.sha256Hex (Framing.frames items)

def sha256HexItems (x : Extern) (items : List String) : String :=
  hashItems x (items.map Encoding.utf8)

/-- A short prefix, used only where the full hash is stored alongside. -/
def short (hash : String) : String := String.ofList (hash.toList.take 16)

/-- Keys sorted, no whitespace. -/
def canonicalJson (v : Json) : String := v.sort.print

def canonicalHash (x : Extern) (v : Json) : String := x.sha256Hex (Encoding.utf8 (canonicalJson v))

theorem hashItems_inj {x : Extern} (hx : Function.Injective x.sha256Hex)
    {as bs : List (List UInt8)} (ha : ∀ a ∈ as, Framing.Short a) (hb : ∀ b ∈ bs, Framing.Short b)
    (h : hashItems x as = hashItems x bs) : as = bs :=
  Framing.frames_inj ha hb (hx h)

end Nix2Rdf
