import Calculation.Keyed
import Calculation.Outline.Basic

/-!
The cache of outlines. When it holds too many documents, or they take too much memory, the one that has been
left alone longest goes first; the document that was edited last is pinned and stays.
-/
namespace Calculation

structure CacheEntry where
  version : Int
  /-- The text that the outline was made from. -/
  text : String
  outline : Outline
deriving DecidableEq, Repr, Inhabited

def CacheEntry.footprint (e : CacheEntry) : Nat :=
  e.text.utf8ByteSize + e.outline.footprint

structure Cache where
  /-- The documents by their URIs, the one used last first. -/
  entries : List (String × CacheEntry)
  maxEntries : Nat
  maxMemory : Nat
  memory : Nat
  pinned : Option String
deriving DecidableEq, Repr, Inhabited

namespace Cache

/-- An empty cache. It has room for one document at least. -/
def new (maxEntries maxMemory : Nat) : Cache :=
  ⟨[], max maxEntries 1, maxMemory, 0, none⟩

def peek? (c : Cache) (uri : String) : Option CacheEntry :=
  Keyed.find? uri c.entries

def contains (c : Cache) (uri : String) : Bool :=
  (c.peek? uri).isSome

def size (c : Cache) : Nat :=
  c.entries.length

/-- The entries without that of `uri`. -/
def others (c : Cache) (uri : String) : List (String × CacheEntry) :=
  Keyed.erase uri c.entries

/-- The entry of `uri`, which becomes the one used last. -/
def get? (c : Cache) (uri : String) : Option CacheEntry × Cache :=
  match c.peek? uri with
  | some e => (some e, { c with entries := (uri, e) :: c.others uri })
  | none => (none, c)

/-- The entry of `uri` if it has this version; looking counts as use in any case. -/
def getAt? (c : Cache) (uri : String) (version : Int) : Option CacheEntry × Cache :=
  let (e, c) := c.get? uri
  (e.filter (·.version == version), c)

/-- The cache without the entry of `uri`, which may still be pinned. -/
def drop (c : Cache) (uri : String) : Cache :=
  match c.peek? uri with
  | some e => { c with entries := c.others uri, memory := c.memory - e.footprint }
  | none => c

def isOver (c : Cache) : Bool :=
  c.maxEntries < c.entries.length || c.maxMemory < c.memory

/-- The document that goes first: of those not pinned the one left alone longest. -/
def victim? (c : Cache) : Option String :=
  (c.entries.reverse.find? fun e => c.pinned != some e.1).map (·.1)

/-- Drops at most `budget` documents while the cache is over its limits, and tells which. -/
def evictUpTo : Nat → Cache → List String × Cache
  | 0, c => ([], c)
  | budget + 1, c =>
    if c.isOver then
      match c.victim? with
      | none => ([], c)
      | some uri =>
        let (uris, c) := evictUpTo budget (c.drop uri)
        (uri :: uris, c)
    else ([], c)

def evict (c : Cache) : List String × Cache :=
  evictUpTo c.entries.length c

/-- Stores a document, pins it, and tells which others had to go. -/
def insert (c : Cache) (uri : String) (e : CacheEntry) : List String × Cache :=
  let c := c.drop uri
  evict { c with entries := (uri, e) :: c.entries, memory := c.memory + e.footprint, pinned := some uri }

def remove (c : Cache) (uri : String) : Option CacheEntry × Cache :=
  match c.peek? uri with
  | some e => (some e, { c.drop uri with pinned := if c.pinned = some uri then none else c.pinned })
  | none => (none, c)

def clear (c : Cache) : Cache :=
  { c with entries := [], memory := 0, pinned := none }

/-- Changes the limits, and tells which documents had to go. -/
def setLimits (c : Cache) (maxEntries maxMemory : Nat) : List String × Cache :=
  evict { c with maxEntries := max maxEntries 1, maxMemory := maxMemory }

end Cache

end Calculation
