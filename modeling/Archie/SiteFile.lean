/-
Site files (`include/core_entry.h`, `include/site_file.h`).

A site file is an array of fixed-length records.  The flags of a record say what
it is: a file, directory, link, document or keyword of the site, or one of the
records that stand for a directory whose entries follow (a sub-path, a port or
a name).
-/
import Mathlib.Data.List.Basic
import Archie.CInt

namespace Archie

/-- The union in a site file record. -/
inductive SiteCore
  | entry (size date perms rdate : ℕ)
  | kwrd (weight : ℕ)
  | prntEntry (strt2 : ℤ)
  deriving DecidableEq, Repr

/-- `full_site_entry_t`. -/
structure SiteEntry where
  flags : ℕ
  strt1 : ℤ
  core : SiteCore
  deriving DecidableEq, Repr

/-! ### `CSE_IS_DIR` and the other tests of the flags -/

def cseIsDir (flags : ℕ) : Bool := flags &&& 0x01 != 0

def cseIsLink (flags : ℕ) : Bool := flags &&& 0x02 != 0

def cseIsSubpath (flags : ℕ) : Bool := flags &&& 0x04 != 0

def cseIsKey (flags : ℕ) : Bool := flags &&& 0x08 != 0

def cseIsPort (flags : ℕ) : Bool := flags &&& 0x10 != 0

def cseIsName (flags : ℕ) : Bool := flags &&& 0x20 != 0

def cseIsDoc (flags : ℕ) : Bool := flags &&& 0x40 != 0

def cseIsFile (flags : ℕ) : Bool := flags == 0

/-- The records that stand for a directory: `CSE_IS_SUBPATH`, `CSE_IS_PORT` or
`CSE_IS_NAME`. -/
def cseIsParent (flags : ℕ) : Bool := cseIsSubpath flags || cseIsPort flags || cseIsName flags

/-- The records whose strings count for the start database. -/
def cseHasString (flags : ℕ) : Bool :=
  cseIsDir flags || cseIsFile flags || cseIsLink flags || cseIsDoc flags || cseIsKey flags

end Archie
