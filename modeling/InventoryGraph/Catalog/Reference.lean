import InventoryGraph.Catalog.Basic

namespace InventoryGraph
namespace Catalog

def refName (s : String) : Outcome Identifier := Outcome.ofValidation (Identifier.ofString s)

def refRule (a b l : String) (v : SchemaVersion) (f : Rule → Rule := id) : Outcome Rule := do
  return f (Rule.new (← refName a) (← refName b) (← refName l) v)

def bareTypes (names : List String) (v : SchemaVersion) : Outcome (List NodeType) :=
  names.mapM fun n => do return NodeType.new (← refName n) v

def asDefault (r : Rule) : Rule := { r with isDefault := true }

def v10 : SchemaVersion := ⟨10, by decide⟩
def v11 : SchemaVersion := ⟨11, by decide⟩
def v12 : SchemaVersion := SchemaVersion.v12

def belongsTo : String := "org.onap.relationships.inventory.BelongsTo"
def linksTo : String := "tosca.relationships.network.LinksTo"
def memberOf : String := "org.onap.relationships.inventory.MemberOf"
def hostedOn : String := "tosca.relationships.HostedOn"
def uses : String := "org.onap.relationships.inventory.Uses"

/-- The rules of the toy catalog. -/
def toyRules : Outcome (List Rule) := do
  let gp ← (List.range 6).mapM fun i =>
    let n := i + 1
    if n % 2 = 1 then
      refRule ("grandparent" ++ toString n) "parent" "raises" v12
        fun r => asDefault { r with contains := .out }
    else
      refRule ("grandparent" ++ toString n) "parent" "raises" v12
        fun r => asDefault { r with direction := .into, contains := .into }
  let first ← [
    refRule "foo" "bar" "eats" v12 asDefault,
    refRule "foo" "bar" "eatz" v12,
    refRule "foo" "baz" "isVeryHappyAbout" v12 asDefault,
    refRule "foo" "quux" "dancesWith" v12 asDefault,
    refRule "dog" "foo" "pets" v12 asDefault,
    refRule "dog" "puppy" "caresFor" v12 fun r =>
      asDefault { r with
        multiplicity := .oneToMany
        deleteOtherV := .out
        description := "dog cares for puppy" },
    refRule "parent" "notation" "has" v12 fun r =>
      asDefault { r with contains := .out, description := "parent contains notation" },
    refRule "not-notation" "parent" "hasNot" v12 fun r =>
      asDefault { r with direction := .into, contains := .out },
    refRule "parent" "out-out" "outOut" v12 fun r => asDefault { r with contains := .out },
    refRule "parent" "in-in" "inIn" v12 fun r =>
      asDefault { r with direction := .into, contains := .into },
    refRule "in-out" "parent" "inOut" v12 fun r =>
      asDefault { r with direction := .into, contains := .out },
    refRule "out-in" "parent" "outIn" v12 fun r => asDefault { r with contains := .into }
  ].mapM id
  let rest ← [
    refRule "l-interface" "lag-interface" belongsTo v11 fun r =>
      asDefault { r with multiplicity := .manyToOne, contains := .into, deleteOtherV := .into },
    refRule "l-interface" "logical-link" linksTo v11 fun r =>
      asDefault { r with deleteOtherV := .out },
    refRule "l-interface" "logical-link" "org.onap.relationships.inventory.Source" v11
      fun r => { r with deleteOtherV := .out },
    refRule "l-interface" "logical-link" "org.onap.relationships.inventory.Destination" v11
      fun r => { r with deleteOtherV := .out },
    refRule "apple" "orange" "eats" v11,
    refRule "apple" "orange" "peels" v11,
    refRule "foo" "bar" "eats" v10 asDefault,
    refRule "foo" "bar" "eatz" v10,
    refRule "foo" "baz" "isVeryHappyAbout" v10 fun r => asDefault { r with contains := .out },
    refRule "foo" "quux" "dancesWith" v10 fun r => asDefault { r with contains := .out }
  ].mapM id
  return first ++ gp ++ rest

def toy : Outcome Catalog := do
  let a ← bareTypes ["foo", "bar", "baz", "quux", "dog", "puppy", "parent", "notation",
    "not-notation", "out-out", "in-in", "in-out", "out-in", "grandparent1", "grandparent2",
    "grandparent3", "grandparent4", "grandparent5", "grandparent6"] v12
  let b ← bareTypes ["l-interface", "lag-interface", "logical-link", "apple", "orange"] v11
  let c ← bareTypes ["foo", "bar", "baz", "quux"] v10
  load (a ++ b ++ c) (← toyRules)

def refProperty (n : String) (t : PrimitiveType := .string) (f : PropertyDef → PropertyDef := id) :
    Outcome PropertyDef := do
  return f (PropertyDef.new (← refName n) t)

def refType (n : String) (v : SchemaVersion) (keys : List String)
    (props : List (Outcome PropertyDef)) (names : List String := []) : Outcome NodeType := do
  let t := NodeType.new (← refName n) v
  let t ← keys.foldlM (fun t k => do return t.withKey (← refName k)) t
  let t ← props.foldlM (fun t p => do return t.withProperty (← p)) t
  names.foldlM (fun t k => do return t.withNameProperty (← refName k)) t

/-- The node types of one version of the network catalog. -/
def networkTypes (v : SchemaVersion) : Outcome (List NodeType) := [
  refType "cloud-region" v ["cloud-owner", "cloud-region-id"] [refProperty "cloud-region-version"],
  refType "tenant" v ["tenant-id"] [refProperty "tenant-name"] ["tenant-name"],
  refType "vserver" v ["vserver-id"]
    [refProperty "vserver-name" .string PropertyDef.withIndex, refProperty "prov-status",
      refProperty "in-maint" .boolean] ["vserver-name"],
  refType "l-interface" v ["interface-name"] [refProperty "macaddr"],
  refType "l3-interface-ipv4-address-list" v ["l3-interface-ipv4-address"]
    [refProperty "l3-interface-ipv4-prefix-length" .integer],
  refType "l3-interface-ipv6-address-list" v ["l3-interface-ipv6-address"] [],
  refType "logical-link" v ["link-name"] [refProperty "link-type"],
  refType "l3-network" v ["network-id"] [refProperty "network-name"] ["network-name"],
  refType "subnet" v ["subnet-id"] [refProperty "subnet-name"],
  refType "generic-vnf" v ["vnf-id"]
    [refProperty "vnf-name" .string PropertyDef.withIndex, refProperty "vnf-type",
      refProperty "tags" .string (·.withCardinality .set)] ["vnf-name"],
  refType "vf-module" v ["vf-module-id"] [refProperty "vf-module-name"],
  refType "vnfc" v ["vnfc-name"]
    [refProperty "nfc-naming-code", refProperty "vnf-id",
      refProperty "vnf-type" .string (·.withDataCopy "/generic-vnf/\x7bvnf-id\x7d#vnf-type")]
].mapM id

def treeRule (child parent : String) (v : SchemaVersion) : Outcome Rule :=
  refRule child parent belongsTo v fun r =>
    asDefault { r with multiplicity := .manyToOne, contains := .into, deleteOtherV := .into }

/-- The rules of one version of the network catalog. -/
def networkRules (v : SchemaVersion) : Outcome (List Rule) := [
  treeRule "tenant" "cloud-region" v,
  treeRule "vserver" "tenant" v,
  treeRule "l-interface" "vserver" v,
  treeRule "l3-interface-ipv4-address-list" "l-interface" v,
  treeRule "l3-interface-ipv6-address-list" "l-interface" v,
  treeRule "subnet" "l3-network" v,
  treeRule "vf-module" "generic-vnf" v,
  refRule "l-interface" "logical-link" linksTo v fun r => asDefault { r with deleteOtherV := .out },
  refRule "l3-interface-ipv4-address-list" "subnet" memberOf v fun r =>
    asDefault { r with multiplicity := .manyToOne, preventDelete := .into },
  refRule "l3-interface-ipv6-address-list" "subnet" memberOf v fun r =>
    asDefault { r with multiplicity := .manyToOne, preventDelete := .into },
  refRule "vnfc" "generic-vnf" belongsTo v fun r => asDefault { r with multiplicity := .manyToOne },
  refRule "generic-vnf" "vserver" hostedOn v asDefault,
  refRule "generic-vnf" "vserver" uses v
].mapM id

def network : Outcome Catalog := do
  load ((← networkTypes v11) ++ (← networkTypes v12)) ((← networkRules v11) ++ (← networkRules v12))

def reference? (name : String) : Option (Outcome Catalog) :=
  if name = "toy" then some toy else if name = "network" then some network else none

end Catalog
end InventoryGraph
