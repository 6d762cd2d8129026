import Multiparty.Config.Basic
import Multiparty.Json.Reader

/-!
# Configuration files

A configuration is a JSON object whose members are all optional; a list gives the members by
position.

## Main definitions

* `ProtocolConfig.parse`: the configuration that a text describes.
* `ProtocolConfig.render`: the text of a configuration, without white space.
-/

namespace Multiparty

namespace ReplicatedCheck

/-- The modes by name. -/
def byName : List (String × ReplicatedCheck) := all.map fun mode => (mode.name, mode)

end ReplicatedCheck

namespace ProtocolConfig

/-- The members of a configuration that have been read. -/
structure Draft where
  checkThreshold : Option Nat := none
  smallCheckThreshold : Option Nat := none
  threshold : Option (Option Nat) := none
  maliciousThreshold : Option Bool := none
  replicatedCheck : Option ReplicatedCheck := none

/-- The members by name, in the order of a list. -/
def members : List (JsonReader.Field Draft) :=
  [⟨"check_threshold", (·.checkThreshold.isSome), fun d => do
      let n ← JsonReader.number UInt64.size
      pure { d with checkThreshold := some n }⟩,
    ⟨"small_check_threshold", (·.smallCheckThreshold.isSome), fun d => do
      let n ← JsonReader.number UInt64.size
      pure { d with smallCheckThreshold := some n }⟩,
    ⟨"shamir_threshold", (·.threshold.isSome), fun d => do
      let n ← JsonReader.option (JsonReader.number UInt64.size)
      pure { d with threshold := some n }⟩,
    ⟨"malicious_shamir", (·.maliciousThreshold.isSome), fun d => do
      let b ← JsonReader.bool
      pure { d with maliciousThreshold := some b }⟩,
    ⟨"replicated_check", (·.replicatedCheck.isSome), fun d => do
      let mode ← JsonReader.variant ReplicatedCheck.byName
      pure { d with replicatedCheck := some mode }⟩]

/-- The configuration with default values for everything that was not read. -/
def ofDraft (d : Draft) : ProtocolConfig :=
  let standard : ProtocolConfig := {}
  { checkThreshold := d.checkThreshold.getD standard.checkThreshold
    smallCheckThreshold := d.smallCheckThreshold.getD standard.smallCheckThreshold
    threshold := d.threshold.getD standard.threshold
    maliciousThreshold := d.maliciousThreshold.getD standard.maliciousThreshold
    replicatedCheck := d.replicatedCheck.getD standard.replicatedCheck }

/-- The configuration that a text describes. -/
def parse (text : Bytes) : Except JsonFault ProtocolConfig :=
  JsonReader.document (ofDraft <$> JsonReader.fields members true {}) text

/-- The text of a configuration, with all members in order. -/
def render (c : ProtocolConfig) : String :=
  "\x7b\"check_threshold\":" ++ toString c.checkThreshold ++
    ",\"small_check_threshold\":" ++ toString c.smallCheckThreshold ++
    ",\"shamir_threshold\":" ++ c.threshold.elim "null" toString ++
    ",\"malicious_shamir\":" ++ (if c.maliciousThreshold then "true" else "false") ++
    ",\"replicated_check\":\"" ++ c.replicatedCheck.name ++ "\"\x7d"

end ProtocolConfig

end Multiparty
