import AccelKrylov.Text.Quoted

/-! Failures that the operating system reports, by number, and the few that arise before it is asked. -/

namespace AccelKrylov

/-- The numbers of system failures, with the kind each belongs to and its text. -/
def systemFailures : Array (Int × String × String) := #[
  (0, "Uncategorized", "Success"),
  (1, "PermissionDenied", "Operation not permitted"),
  (2, "NotFound", "No such file or directory"),
  (3, "Uncategorized", "No such process"),
  (4, "Interrupted", "Interrupted system call"),
  (5, "InputOutputError", "Input/output error"),
  (6, "Uncategorized", "No such device or address"),
  (7, "ArgumentListTooLong", "Argument list too long"),
  (8, "Uncategorized", "Exec format error"),
  (9, "Uncategorized", "Bad file descriptor"),
  (10, "Uncategorized", "No child processes"),
  (11, "WouldBlock", "Resource temporarily unavailable"),
  (12, "OutOfMemory", "Cannot allocate memory"),
  (13, "PermissionDenied", "Permission denied"),
  (14, "Uncategorized", "Bad address"),
  (15, "Uncategorized", "Block device required"),
  (16, "ResourceBusy", "Device or resource busy"),
  (17, "AlreadyExists", "File exists"),
  (18, "CrossesDevices", "Invalid cross-device link"),
  (19, "Uncategorized", "No such device"),
  (20, "NotADirectory", "Not a directory"),
  (21, "IsADirectory", "Is a directory"),
  (22, "InvalidInput", "Invalid argument"),
  (23, "TooManyOpenFiles", "Too many open files in system"),
  (24, "TooManyOpenFiles", "Too many open files"),
  (25, "Uncategorized", "Inappropriate ioctl for device"),
  (26, "ExecutableFileBusy", "Text file busy"),
  (27, "FileTooLarge", "File too large"),
  (28, "StorageFull", "No space left on device"),
  (29, "NotSeekable", "Illegal seek"),
  (30, "ReadOnlyFilesystem", "Read-only file system"),
  (31, "TooManyLinks", "Too many links"),
  (32, "BrokenPipe", "Broken pipe"),
  (33, "Uncategorized", "Numerical argument out of domain"),
  (34, "Uncategorized", "Numerical result out of range"),
  (35, "Deadlock", "Resource deadlock avoided"),
  (36, "InvalidFilename", "File name too long"),
  (37, "Uncategorized", "No locks available"),
  (38, "Unsupported", "Function not implemented"),
  (39, "DirectoryNotEmpty", "Directory not empty"),
  (40, "FilesystemLoop", "Too many levels of symbolic links"),
  (42, "Uncategorized", "No message of desired type"),
  (43, "Uncategorized", "Identifier removed"),
  (44, "Uncategorized", "Channel number out of range"),
  (45, "Uncategorized", "Level 2 not synchronized"),
  (46, "Uncategorized", "Level 3 halted"),
  (47, "Uncategorized", "Level 3 reset"),
  (48, "Uncategorized", "Link number out of range"),
  (49, "Uncategorized", "Protocol driver not attached"),
  (50, "Uncategorized", "No CSI structure available"),
  (51, "Uncategorized", "Level 2 halted"),
  (52, "Uncategorized", "Invalid exchange"),
  (53, "Uncategorized", "Invalid request descriptor"),
  (54, "Uncategorized", "Exchange full"),
  (55, "Uncategorized", "No anode"),
  (56, "Uncategorized", "Invalid request code"),
  (57, "Uncategorized", "Invalid slot"),
  (59, "Uncategorized", "Bad font file format"),
  (60, "Uncategorized", "Device not a stream"),
  (61, "Uncategorized", "No data available"),
  (62, "Uncategorized", "Timer expired"),
  (63, "Uncategorized", "Out of streams resources"),
  (64, "Uncategorized", "Machine is not on the network"),
  (65, "Uncategorized", "Package not installed"),
  (66, "Uncategorized", "Object is remote"),
  (67, "Uncategorized", "Link has been severed"),
  (68, "Uncategorized", "Advertise error"),
  (69, "Uncategorized", "Srmount error"),
  (70, "Uncategorized", "Communication error on send"),
  (71, "Uncategorized", "Protocol error"),
  (72, "Uncategorized", "Multihop attempted"),
  (73, "Uncategorized", "RFS specific error"),
  (74, "Uncategorized", "Bad message"),
  (75, "Uncategorized", "Value too large for defined data type"),
  (76, "Uncategorized", "Name not unique on network"),
  (77, "Uncategorized", "File descriptor in bad state"),
  (78, "Uncategorized", "Remote address changed"),
  (79, "Uncategorized", "Can not access a needed shared library"),
  (80, "Uncategorized", "Accessing a corrupted shared library"),
  (81, "Uncategorized", ".lib section in a.out corrupted"),
  (82, "Uncategorized", "Attempting to link in too many shared libraries"),
  (83, "Uncategorized", "Cannot exec a shared library directly"),
  (84, "Uncategorized", "Invalid or incomplete multibyte or wide character"),
  (85, "Uncategorized", "Interrupted system call should be restarted"),
  (86, "Uncategorized", "Streams pipe error"),
  (87, "Uncategorized", "Too many users"),
  (88, "Uncategorized", "Socket operation on non-socket"),
  (89, "Uncategorized", "Destination address required"),
  (90, "Uncategorized", "Message too long"),
  (91, "Uncategorized", "Protocol wrong type for socket"),
  (92, "Uncategorized", "Protocol not available"),
  (93, "Uncategorized", "Protocol not supported"),
  (94, "Uncategorized", "Socket type not supported"),
  (95, "Unsupported", "Operation not supported"),
  (96, "Uncategorized", "Protocol family not supported"),
  (97, "Uncategorized", "Address family not supported by protocol"),
  (98, "AddrInUse", "Address already in use"),
  (99, "AddrNotAvailable", "Cannot assign requested address"),
  (100, "NetworkDown", "Network is down"),
  (101, "NetworkUnreachable", "Network is unreachable"),
  (102, "Uncategorized", "Network dropped connection on reset"),
  (103, "ConnectionAborted", "Software caused connection abort"),
  (104, "ConnectionReset", "Connection reset by peer"),
  (105, "Uncategorized", "No buffer space available"),
  (106, "Uncategorized", "Transport endpoint is already connected"),
  (107, "NotConnected", "Transport endpoint is not connected"),
  (108, "Uncategorized", "Cannot send after transport endpoint shutdown"),
  (109, "Uncategorized", "Too many references: cannot splice"),
  (110, "TimedOut", "Connection timed out"),
  (111, "ConnectionRefused", "Connection refused"),
  (112, "Uncategorized", "Host is down"),
  (113, "HostUnreachable", "No route to host"),
  (114, "Uncategorized", "Operation already in progress"),
  (115, "InProgress", "Operation now in progress"),
  (116, "StaleNetworkFileHandle", "Stale file handle"),
  (117, "Uncategorized", "Structure needs cleaning"),
  (118, "Uncategorized", "Not a XENIX named type file"),
  (119, "Uncategorized", "No XENIX semaphores available"),
  (120, "Uncategorized", "Is a named type file"),
  (121, "Uncategorized", "Remote I/O error"),
  (122, "QuotaExceeded", "Disk quota exceeded"),
  (123, "Uncategorized", "No medium found"),
  (124, "Uncategorized", "Wrong medium type"),
  (125, "Uncategorized", "Operation canceled"),
  (126, "Uncategorized", "Required key not available"),
  (127, "Uncategorized", "Key has expired"),
  (128, "Uncategorized", "Key has been revoked"),
  (129, "Uncategorized", "Key was rejected by service"),
  (130, "Uncategorized", "Owner died"),
  (131, "Uncategorized", "State not recoverable"),
  (132, "Uncategorized", "Operation not possible due to RF-kill"),
  (133, "Uncategorized", "Memory page has hardware error")]

inductive IoError where
  /-- A failure reported by number. -/
  | os (code : Int32)
  /-- A file name with a zero byte inside, which the system cannot be asked about. -/
  | embeddedNul
  /-- A failure described by whoever raised it. -/
  | other (text : String)
deriving DecidableEq

namespace IoError

/-- No such file or directory. -/
def notFound : IoError := .os 2

/-- A descriptor that is not open. -/
def badDescriptor : IoError := .os 9

/-- Not a directory. -/
def notDirectory : IoError := .os 20

/-- Is a directory. -/
def isDirectory : IoError := .os 21

/-- An argument that makes no sense. -/
def invalid : IoError := .os 22

/-- A name that is too long. -/
def nameTooLong : IoError := .os 36

/-- The kind and the text of a system failure. -/
def systemFailure (code : Int32) : String × String :=
  match systemFailures.find? fun (n, _) => n == code.toInt with
  | some (_, kind, text) => (kind, text)
  | none => ("Uncategorized", s!"Unknown error {code.toInt}")

def message : IoError → String
  | os code => (systemFailure code).2 ++ s!" (os error {code.toInt})"
  | embeddedNul => "file name contained an unexpected NUL byte"
  | other text => text

/-- The failure with its parts named. -/
def describe : IoError → String
  | os code =>
    let (kind, text) := systemFailure code
    s!"Os \x7b code: {code.toInt}, kind: {kind}, message: " ++ Text.quote text ++ " \x7d"
  | e@embeddedNul =>
    "Error \x7b kind: InvalidInput, message: " ++ Text.quote e.message ++ " \x7d"
  | other text => "Custom \x7b kind: Other, error: " ++ Text.quote text ++ " \x7d"

/-- The negated number, if there is one. The least number, which cannot be negated, is none that systems report. -/
def negatedCode? : IoError → Option Int32
  | os code => some (-code)
  | _ => none

end IoError

end AccelKrylov
