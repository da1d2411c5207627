import RamRestore.IoError
import RamRestore.RamBlock
import RamRestore.Unpack

/-! # Load errors

Everything that can stop a restore, as causes, and the text of each.
-/

namespace RamRestore

def hex (n : Nat) : String := "0x" ++ String.ofList (Nat.toDigits 16 n)

inductive Corruption where
  | repeatedBlock (id : String)
  | tooManyPages (id : String) (pages size : Nat)
  | blockTooLong (size pageSize : Nat)
  | positionOverflow
  | pagesOnDisk (count : Nat)
  | sizeTooLarge (size : Nat)
  | positionOutOfRange
  deriving DecidableEq, Repr

def Corruption.message : Corruption → String
  | .repeatedBlock id => "block '" ++ id ++ "' is listed more than once"
  | .tooManyPages id pages size =>
    "block '" ++ id ++ "' has " ++ toString pages ++ " pages but only " ++ toString size ++ " bytes"
  | .blockTooLong size pageSize =>
    "compressed page of " ++ toString size ++ " bytes can't expand to " ++ toString pageSize
  | .positionOverflow => "page position overflows"
  | .pagesOnDisk count => "uncompressed page spans " ++ toString count ++ " pages on disk"
  | .sizeTooLarge size => "page size on disk " ++ toString size ++ " is too large"
  | .positionOutOfRange => "page position is out of range"

inductive LoadError where
  | formatVersion (version : Nat)
  | unknownBlock (name : String)
  | invalidIndex (cause : Corruption)
  | invalidBlock (id : String) (cause : BlockFault)
  | alreadyStarted
  | shortRead (address position got expected : Nat)
  | unpack (address : Nat) (cause : UnpackError)
  | watchInit
  | registerRange (start length : Nat) (cause : IoError)
  | fill (address : Nat) (cause : IoError)
  | pageFailed (address : Nat)
  | unmapped (address : Nat)
  | io (cause : IoError)
  deriving DecidableEq, Repr

def LoadError.message : LoadError → String
  | .formatVersion version =>
    "unsupported snapshot index version " ++ toString version ++ ", expected 1"
  | .unknownBlock name => "snapshot references RAM block '" ++ name ++ "' which was not registered"
  | .invalidIndex cause => "snapshot index is corrupt: " ++ cause.message
  | .invalidBlock id cause => "cannot register RAM block '" ++ id ++ "': " ++ cause.message
  | .alreadyStarted => "loading was already started"
  | .shortRead address position got expected =>
    "reading page " ++ hex address ++ " returned " ++ toString got ++ " of " ++ toString expected ++
      " bytes at offset " ++ toString position
  | .unpack address _ => "decompressing page " ++ hex address ++ " failed"
  | .watchInit => "memory access watch failed to initialize"
  | .registerRange start length _ =>
    "failed to watch memory range " ++ hex start ++ "+" ++ hex length
  | .fill address _ => "filling page " ++ hex address ++ " into guest memory failed"
  | .pageFailed address => "page " ++ hex address ++ " failed to load"
  | .unmapped address => "address " ++ hex address ++ " is not inside any registered RAM block"
  | .io cause => cause.message

end RamRestore
