/-! What a file operation can report. -/
namespace Provision

inductive FileError
  | notFound
  | exists
  | notDirectory
  | isDirectory
  | invalidArgument
  | nameTooLong
  | notEmpty
  | busy
  /-- A path with a zero character in it. -/
  | zeroInPath
  | emptyPath
  /-- A path that has no parent left to make. -/
  | noParent
  /-- A file that should hold text holds something else. -/
  | notText
  | readRefused
  | writeRefused
deriving DecidableEq, Repr

def FileError.message : FileError → String
  | .notFound => "No such file or directory (os error 2)"
  | .exists => "File exists (os error 17)"
  | .notDirectory => "Not a directory (os error 20)"
  | .isDirectory => "Is a directory (os error 21)"
  | .invalidArgument => "Invalid argument (os error 22)"
  | .nameTooLong => "File name too long (os error 36)"
  | .notEmpty => "Directory not empty (os error 39)"
  | .busy => "Device or resource busy (os error 16)"
  | .zeroInPath => "file name contained an unexpected NUL byte"
  | .emptyPath => "cannot make an empty path absolute"
  | .noParent => "failed to create whole tree"
  | .notText => "stream did not contain valid UTF-8"
  | .readRefused => "read refused"
  | .writeRefused => "write refused"

end Provision
