import SBUnix.Lib.Numbers

namespace SBUnix

open CString

def charSlash : UInt8 := 47

/-- The type digit of a header; the two kinds of entry a ramdisk has. -/
inductive Kind where
  | file | directory
  deriving DecidableEq, Repr

def Kind.digit : Kind → UInt8
  | .file => 48
  | .directory => 53

/-- FILE_TYPE and DIRECTORY. -/
def Kind.code : Kind → Int
  | .file => 0
  | .directory => 5

/-- An entry of a ustar archive, its header field by field. `owner` is mode, uid and gid,
`stamps` mtime and checksum, `tail` everything behind linkname. -/
structure Member where
  name : Bytes
  nameRest : Bytes
  owner : Bytes
  stamps : Bytes
  kind : Kind
  linkRest : Bytes
  tail : Bytes
  data : Bytes
  padding : Bytes
  name_ne : name ≠ []
  name_noNul : 0 ∉ name
  name_length : name.length + nameRest.length = 99
  owner_length : owner.length = 24
  stamps_length : stamps.length = 20
  link_length : linkRest.length = 99
  tail_length : tail.length = 255
  data_length : data.length < 2^31
  padding_length : padding.length = (512 - data.length%512) % 512
  slash_last : kind = .directory → name.getLast? = some charSlash

def Member.header (m : Member) : Bytes :=
  m.name ++ 0::m.nameRest ++ m.owner ++ octal 11 m.data.length ++ [0] ++ m.stamps ++
    [m.kind.digit] ++ 0::m.linkRest ++ m.tail

def Member.bytes (m : Member) : Bytes := m.header ++ m.data ++ m.padding

theorem Member.header_length (m : Member) : m.header.length = 512 := by
  simp only [Member.header, List.length_append, List.length_cons, List.length_nil, octal_length,
    m.owner_length, m.stamps_length, m.link_length, m.tail_length]
  have := m.name_length
  omega

theorem Member.bytes_length (m : Member) :
    m.bytes.length = 512 + m.data.length + (512 - m.data.length%512) % 512 := by
  rw [Member.bytes, List.length_append, List.length_append, m.header_length, m.padding_length]

section Fields

variable (m : Member) (r : Bytes)

/-- What the loader finds in front of it at a header: the name and its terminator. -/
theorem Member.bytes_name : ∃ s, m.bytes ++ r = m.name ++ 0::s := by
  simp only [Member.bytes, Member.header, List.append_assoc, List.cons_append]
  exact ⟨_, rfl⟩

/-- The size field at its offset. -/
theorem Member.bytes_size : ∃ s, (m.bytes ++ r).drop 124 = octal 11 m.data.length ++ 0::s := by
  have hlen : (m.name ++ 0::m.nameRest ++ m.owner).length = 124 := by
    simp only [List.length_append, List.length_cons, m.owner_length]
    have := m.name_length
    omega
  have hsplit : m.bytes ++ r = (m.name ++ 0::m.nameRest ++ m.owner) ++
      (octal 11 m.data.length ++ 0::(m.stamps ++ [m.kind.digit] ++ 0::m.linkRest ++ m.tail ++
        m.data ++ m.padding ++ r)) := by
    simp [Member.bytes, Member.header]
  exact ⟨_, by rw [hsplit, ← hlen, List.drop_left]⟩

/-- The type digit at its offset, with linkname behind it. -/
theorem Member.bytes_typeflag : ∃ s, (m.bytes ++ r).drop 156 = m.kind.digit :: 0 :: s := by
  have hlen : (m.name ++ 0::m.nameRest ++ m.owner ++ octal 11 m.data.length ++ [0] ++
      m.stamps).length = 156 := by
    simp only [List.length_append, List.length_cons, List.length_nil, octal_length,
      m.owner_length, m.stamps_length]
    have := m.name_length
    omega
  have hsplit : m.bytes ++ r = (m.name ++ 0::m.nameRest ++ m.owner ++ octal 11 m.data.length ++
      [0] ++ m.stamps) ++ m.kind.digit :: 0 :: (m.linkRest ++ m.tail ++ m.data ++ m.padding ++ r) := by
    simp [Member.bytes, Member.header]
  exact ⟨_, by rw [hsplit, ← hlen, List.drop_left]⟩

/-- The content behind the header. -/
theorem Member.bytes_data : ∃ s, (m.bytes ++ r).drop 512 = m.data ++ s := by
  have hsplit : m.bytes ++ r = m.header ++ (m.data ++ (m.padding ++ r)) := by
    simp [Member.bytes]
  exact ⟨_, by rw [hsplit, ← m.header_length, List.drop_left]⟩

end Fields

/-- A ramdisk linked at `start` (_binary_tarfs_start): its entries, a zero block, and whatever
follows up to _binary_tarfs_end. -/
structure Archive where
  members : List Member
  rest : Bytes
  start : Nat
  length_lt : (members.flatMap Member.bytes).length + 512 + rest.length < 2^31
  start_pos : 0 < start
  end_le : start + ((members.flatMap Member.bytes).length + 512 + rest.length) ≤ 2^64

def Archive.bytes (a : Archive) : Bytes :=
  a.members.flatMap Member.bytes ++ (List.replicate 512 0 ++ a.rest)

/-- Where the header of the `i`-th entry is in the archive. -/
def offset (ms : List Member) (i : Nat) : Nat := ((ms.take i).flatMap Member.bytes).length

def Archive.address (a : Archive) (i : Nat) : Nat := a.start + offset a.members i

theorem Archive.bytes_length (a : Archive) :
    a.bytes.length = (a.members.flatMap Member.bytes).length + 512 + a.rest.length := by
  rw [Archive.bytes, List.length_append, List.length_append, List.length_replicate, Nat.add_assoc]

theorem offset_append_left (ms ns : List Member) {i : Nat} (h : i ≤ ms.length) :
    offset (ms++ns) i = offset ms i := by
  rw [offset, List.take_append_of_le_length h, offset]

theorem offset_length (ms ns : List Member) :
    offset (ms++ns) ms.length = (ms.flatMap Member.bytes).length := by
  rw [offset, List.take_left]

theorem offset_cons (m : Member) (ms : List Member) (i : Nat) :
    offset (m::ms) (i+1) = m.bytes.length + offset ms i := by
  rw [offset, List.take_succ_cons, List.flatMap_cons, List.length_append, offset]

theorem offset_succ {ms : List Member} {i : Nat} {m : Member} (h : ms[i]? = some m) :
    offset ms (i+1) = offset ms i + m.bytes.length := by
  rw [offset, List.take_add_one, h, Option.toList_some, List.flatMap_append, List.length_append,
    List.flatMap_singleton, offset]

/-- An entry whose other header fields are zero. -/
def Member.zeroed (name : Bytes) (kind : Kind) (data : Bytes) (hne : name ≠ []) (h0 : 0 ∉ name)
    (hlen : name.length ≤ 99) (hdata : data.length < 2^31)
    (hslash : kind = .directory → name.getLast? = some charSlash) : Member where
  name := name
  nameRest := List.replicate (99-name.length) 0
  owner := List.replicate 24 0
  stamps := List.replicate 20 0
  kind := kind
  linkRest := List.replicate 99 0
  tail := List.replicate 255 0
  data := data
  padding := List.replicate ((512 - data.length%512) % 512) 0
  name_ne := hne
  name_noNul := h0
  name_length := by rw [List.length_replicate]; omega
  owner_length := List.length_replicate
  stamps_length := List.length_replicate
  link_length := List.length_replicate
  tail_length := List.length_replicate
  data_length := hdata
  padding_length := List.length_replicate
  slash_last := hslash

theorem empty_data_length : ([] : Bytes).length < 2^31 := by decide

/-- `bin/` -/
def binDir : Member :=
  .zeroed [98, 105, 110, 47] .directory [] (by decide) (by decide) (by decide) empty_data_length
    (by decide)

/-- `bin/cat`, a file with the content `hi`. -/
def binCat : Member :=
  .zeroed [98, 105, 110, 47, 99, 97, 116] .file [104, 105] (by decide) (by decide) (by decide)
    (by decide) (by decide)

/-- A ramdisk with nothing behind its zero block. -/
def Archive.linked (ms : List Member) (h : (ms.flatMap Member.bytes).length < 2^30) : Archive where
  members := ms
  rest := []
  start := 0x200000
  length_lt := by rw [List.length_nil]; omega
  start_pos := by norm_num
  end_le := by rw [List.length_nil]; omega

def ramdisk : Archive := .linked [binDir, binCat] (by
  simp only [List.flatMap_cons, List.flatMap_nil, List.length_append, Member.bytes_length]
  decide)

/-- `bin/cat` with the content `hh`. -/
def doubleCat : Member :=
  .zeroed [98, 105, 110, 47, 99, 97, 116] .file [104, 104] (by decide) (by decide) (by decide)
    (by decide) (by decide)

def doubleRamdisk : Archive := .linked [binDir, doubleCat] (by
  simp only [List.flatMap_cons, List.flatMap_nil, List.length_append, Member.bytes_length]
  decide)

end SBUnix
