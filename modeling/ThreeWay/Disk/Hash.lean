import ThreeWay.Digest.Sha256
import ThreeWay.Disk.Read
import ThreeWay.Object.Id
import ThreeWay.Text.Hex

/-!
# Content ids of files on a disk

A file on a disk is identified by its checksum where there is no repository, and else by the id that the
repository would give its content. Both follow links.

## Main definitions

* `checksum`: The SHA-256 digest of some bytes, as text.
* `Disk.checksum`: The checksum of a file.
* `Disk.blobId`: The object id of a file's content.
* `Disk.hashByChecksum`, `Disk.hashByBlobId`: The same as content ids for a scan.
-/

namespace ThreeWay

/-- The SHA-256 digest of some bytes in hexadecimal, after the name of the algorithm. -/
def checksum (content : Bytes) : String :=
  "sha256:" ++ Hex.encode (Digest.sha256 content)

namespace Disk

/-- The checksum of a file. -/
def checksum (d : Disk) (path : RawPath) : Except FileError String :=
  ThreeWay.checksum <$> d.readBytes path

/-- The id that a repository gives the content of a file. -/
def blobId (d : Disk) (path : RawPath) : Except ObjectError ObjectId :=
  match d.read path with
  | .ok content => .ok (.ofBlob content)
  | .error fault => .error (.unreadable path fault)

/-- The checksum of a file as its content id. -/
def hashByChecksum (d : Disk) (path : RawPath) : Except Error ContentId :=
  match d.checksum path with
  | .ok text => .ok ⟨text⟩
  | .error e => .error (.ofFile e)

/-- The object id of a file's content as its content id. -/
def hashByBlobId (d : Disk) (path : RawPath) : Except Error ContentId :=
  match d.blobId path with
  | .ok id => .ok ⟨id.hex⟩
  | .error e => .error (.contentRead path.display (.object e))

end Disk

end ThreeWay
