import Nix2Rdf.Extract.Drv
import Nix2Rdf.Extract.Nixos
import Nix2Rdf.Hash
import Nix2Rdf.Lib.CanonicalJson

/-!
# Hashes of canonical JSON

Environments, option values and the configs of images are named by the hash of their canonical text.
-/

namespace Nix2Rdf.Extract

open Nixos (valueHash)
open Json (Proper Reordered)

def envHash (x : Extern) (d : DrvInfo) : String := canonicalHash x (envJson d)

/-- `read_nix2container` takes the hash of the whole image description. -/
def configDigestHex (x : Extern) (v : Json) : Option String := some (canonicalHash x v)

theorem valueHash_eq (x : Extern) (v : Json) : valueHash x v = canonicalHash x v := rfl

theorem canonicalHash_eq_iff {x : Extern} (hx : Function.Injective x.sha256Hex) (v w : Json.Value) :
    canonicalHash x v.1 = canonicalHash x w.1 ↔ Reordered v.1 w.1 := by
  rw [← Json.print_sort_eq_iff v.2 w.2]
  constructor
  · intro h
    exact Encoding.utf8_injective (hx h)
  · intro h
    rw [canonicalHash, canonicalHash, canonicalJson, canonicalJson, h]

/-! ## Environments -/

theorem keys_envJson (d : DrvInfo) :
    (d.env.toList.map fun kv => (kv.1, Json.str kv.2)).map Prod.fst = d.env.keys := by
  rw [List.map_map, ← Std.ExtTreeMap.map_fst_toList_eq_keys]
  rfl

theorem proper_envJson (d : DrvInfo) : Proper (envJson d) := by
  refine .obj ?_ fun kv hkv => ?_
  · rw [keys_envJson]
    exact Std.ExtTreeMap.nodup_keys
  · obtain ⟨e, _, rfl⟩ := List.mem_map.mp hkv
    exact .str _

theorem mem_envJson {d : DrvInfo} {k : String} {v : Json} :
    (k, v) ∈ (d.env.toList.map fun kv => (kv.1, Json.str kv.2)) ↔ ∃ s, d.env[k]? = some s ∧ v = .str s := by
  rw [List.mem_map]
  constructor
  · intro h
    obtain ⟨e, he, heq⟩ := h
    cases heq
    exact ⟨e.2, Std.ExtTreeMap.mem_toList_iff_getElem?_eq_some.mp he, rfl⟩
  · intro h
    obtain ⟨s, hs, rfl⟩ := h
    exact ⟨(k, s), Std.ExtTreeMap.mem_toList_iff_getElem?_eq_some.mpr hs, rfl⟩

/-- Environments are reordered only if they are one map. -/
theorem reordered_envJson_iff {d d' : DrvInfo} : Reordered (envJson d) (envJson d') ↔ d.env = d'.env := by
  constructor
  · intro h
    have hsort := (Json.sort_eq_iff (proper_envJson d) (proper_envJson d')).mpr h
    apply Std.ExtTreeMap.ext_getElem?
    intro k
    have hk := congrArg (fun v : Json => v.get? k) hsort
    simp only [Json.get?_sort] at hk
    have hget : ∀ d : DrvInfo, (envJson d).get? k = (d.env[k]?).map .str := by
      intro d
      cases he : d.env[k]? with
      | none =>
          refine Option.not_isSome_iff_eq_none.mp fun hsome => ?_
          rw [envJson, Json.get?, Json.lookup_isSome, keys_envJson, Std.ExtTreeMap.mem_keys,
            ← Std.ExtTreeMap.isSome_getElem?_iff_mem, he] at hsome
          cases hsome
      | some s =>
          have hnodup : ((d.env.toList.map fun kv => (kv.1, Json.str kv.2)).map Prod.fst).Nodup := by
            rw [keys_envJson]
            exact Std.ExtTreeMap.nodup_keys
          exact Json.lookup_eq_some hnodup (mem_envJson.mpr ⟨s, he, rfl⟩)
    rw [hget, hget, Option.map_map, Option.map_map] at hk
    refine Option.map_injective (fun s t hst => ?_) hk
    exact Json.str.inj hst
  · intro h
    rw [envJson, envJson, h]
    exact .same _

/-- Canonical texts are the same exactly for values that differ in the order of members only, and so are the
hashes that are taken of them. -/
theorem canonicalJson_eq_iff (x : Extern) :
    (∀ v w : Json.Value, canonicalJson v.1 = canonicalJson w.1 ↔ Reordered v.1 w.1) ∧
    (Function.Injective x.sha256Hex →
      (∀ v w : Json.Value, (valueHash x v.1 = valueHash x w.1 ↔ Reordered v.1 w.1) ∧
        (configDigestHex x v.1 = configDigestHex x w.1 ↔ Reordered v.1 w.1)) ∧
      ∀ d d' : DrvInfo, envHash x d = envHash x d' ↔ d.env = d'.env) := by
  refine ⟨fun v w => Json.print_sort_eq_iff v.2 w.2, fun hx => ⟨fun v w => ⟨?_, ?_⟩, fun d d' => ?_⟩⟩
  · rw [valueHash_eq, valueHash_eq, canonicalHash_eq_iff hx]
  · rw [configDigestHex, configDigestHex, Option.some.injEq, canonicalHash_eq_iff hx]
  · rw [envHash, envHash, ← reordered_envJson_iff]
    exact canonicalHash_eq_iff hx ⟨_, proper_envJson d⟩ ⟨_, proper_envJson d'⟩

end Nix2Rdf.Extract
