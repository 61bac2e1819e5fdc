import Daos.Control.HostParse

/-!
# The methods of a host list that read host names (`control/lib/hostlist/hostlist.go`)

A `HostList` stands for the hosts its ranges print, range after range: a range of numbers prints
`prefix`, each number padded to its width, and `suffix`; a bare range prints its prefix once.
`Slice` splits `DerangedString` at its commas, so it lists the hosts when no host holds a comma.

**What is modelled.** The methods that read a host name (`Find`, `DeleteHost`, `Delete`,
`Within`) parse it with `hostName.Parse`. `Find` returns the list, as its `containsHost` may have
changed a width. The loops of `Delete` and `Within` pop a list until it is empty; they run on
fuel, `popMeasure` plus one, which bounds the pops: each removes a range or lowers the top of the
last one.

**Where the methods and the hosts part** (`hostList_pop_find_uniq_mismatch`): `Pop` of a last
range of the numbers 0 and 1 drops the whole range, `Find` answers a position for any host of a
bare range's prefix, `Find` and `DeleteHost` miss a bare host whose name holds a dot, and `Uniq`
keeps the count of the hosts it removed.
-/

namespace Daos.Control

namespace HostList

/-- `Find`: the position of the host, and the list `containsHost` may have changed. -/
def find (hl : HostList) (stringHost : List Char) : Option ℤ × HostList :=
  match parseHostName stringHost with
  | .error _ => (none, hl)
  | .ok hn =>
    let (idx, ranges) := findLoop hn 0 hl.ranges
    (idx, { hl with ranges := ranges })

/-- `Slice`. -/
def slice (hl : HostList) : List (List Char) :=
  hl.derangedString.splitOn ','

/-- `DeleteHost`. -/
def deleteHost (hl : HostList) (stringHost : List Char) : Except String HostList :=
  if hl.isEmpty then .error errEmpty
  else
    match hl.find stringHost with
    | (some idx, hl) => hl.deleteNth idx
    | (none, _) => .error errNotFound

/-- What bounds the pops of a list: each removes a range or lowers the top of the last one. -/
def popMeasure (hl : HostList) : ℕ :=
  hl.ranges.length + (hl.ranges.map fun hr => hr.hi + 1 - hr.lo).sum

/-- The loop of `Delete`: the hosts of `tmp`, last first, each deleted from the list where it is
found, and the number deleted. -/
def deleteLoop : ℕ → HostList → HostList → ℕ → Except String (HostList × ℕ)
  | 0, _, _, _ => .error "fuel"
  | fuel + 1, hl, tmp, deleted =>
    match tmp.pop with
    | .error _ => .ok (hl, deleted)
    | .ok (host, tmp) =>
      match hl.deleteHost host with
      | .ok hl => deleteLoop fuel hl tmp (deleted + 1)
      | .error _ => deleteLoop fuel hl tmp deleted

/-- `Delete`. -/
def delete (hl : HostList) (stringHosts : List Char) : Except String (HostList × ℕ) :=
  if hl.isEmpty then .error errEmpty
  else
    match create stringHosts with
    | .error err => .error (String.ofList err)
    | .ok tmp => deleteLoop (tmp.popMeasure + 1) hl tmp 0

/-- The loop of `Within`: whether each host of `toFind`, last first, is found. -/
def withinLoop : ℕ → HostList → HostList → Except String (Bool × HostList)
  | 0, _, _ => .error "fuel"
  | fuel + 1, hl, toFind =>
    match toFind.pop with
    | .error _ => .ok (true, hl)
    | .ok (host, toFind) =>
      match hl.find host with
      | (none, hl) => .ok (false, hl)
      | (some _, hl) => withinLoop fuel hl toFind

/-- `Within`. -/
def within (hl : HostList) (stringHosts : List Char) : Except String (Bool × HostList) :=
  match create stringHosts with
  | .error err => .error (String.ofList err)
  | .ok toFind => withinLoop (toFind.popMeasure + 1) hl toFind

/-- Where the methods and the sequence of hosts part. `Pop` of `node[0-1]` returns `node1` but
drops the whole range, so `node0` is lost while the count keeps it; `Find` answers position 0
for `foo1` in `foo`, as a bare range matches every host of its prefix; `Find` and `DeleteHost`
miss `foo.bar` in the list that prints it, a bare range of prefix `foo.bar` that `containsHost`
compares with the prefix `foo` that `createHostName` reads; `Uniq` of `foo,foo1` keeps `foo`
alone with the count of two. -/
theorem hostList_pop_find_uniq_mismatch :
    (HostList.create "node[0-1]".toList).map (fun hl =>
      (hl.slice, hl.pop.map fun p => (p.1, p.2.ranges, p.2.count))) =
      .ok (["node0".toList, "node1".toList], .ok ("node1".toList, [], 1)) ∧
    (HostList.create "foo".toList).map (fun hl => (hl.slice, (hl.find "foo1".toList).1)) =
      .ok (["foo".toList], some 0) ∧
    (HostList.create "foo.bar".toList).map (fun hl =>
      (hl.slice, (hl.find "foo.bar".toList).1, (hl.deleteHost "foo.bar".toList).toBool)) =
      .ok (["foo.bar".toList], none, false) ∧
    (HostList.create "foo,foo1".toList).map (fun hl => (hl.slice, hl.uniq.slice, hl.uniq.count)) =
      .ok (["foo".toList, "foo1".toList], ["foo".toList], 2) :=
  ⟨by decide, by decide, by decide, by decide⟩

end HostList

end Daos.Control
