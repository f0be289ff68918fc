import FortyTwo.Foundation.LexicalPath
import FortyTwo.Webserv.MultipartParser
import FortyTwo.Webserv.ResponseSafety

/-!
Where the paths lie that `resolve_file_path` and `get_upload_file_path` make.
Both join what the client has sent to a directory, and neither looks at `..`:
the path stays below the directory exactly when what was sent does not leave it.
-/

namespace FortyTwo.Webserv

open Foundation

/-- The normal form of a path of the file system. -/
def normalPath (path : Bytes) : Place UInt8 := normalize (byteOf '/') (byteOf '.') path

/-- `below` does not leave the directory that it is joined to. -/
def Stays (directory below : Bytes) : Prop :=
  StaysWithin (byteOf '/') (byteOf '.') directory below

/-- The root that a location is served from. -/
def rootOf (config : Config) (location : Location) : Bytes :=
  if location.common.root = [] then config.common.root else location.common.root

/-- A target without the slash that it begins with. -/
def belowRoot (uriPath : Bytes) : Bytes :=
  if uriPath.head? = some (byteOf '/') then uriPath.drop 1 else uriPath

private theorem ensureTrailingSlash_append (directory below : Bytes) :
    ensureTrailingSlash directory ++ below = joinPath (byteOf '/') directory below := by
  unfold ensureTrailingSlash joinPath
  split
  · rw [List.append_assoc]
    rfl
  · rfl

private theorem joined_within_iff (directory below : Bytes) :
    (normalPath directory).Within (normalPath (ensureTrailingSlash directory ++ below)) ↔
      Stays directory below := by
  rw [ensureTrailingSlash_append]
  exact within_joinPath_iff _ _ directory below

theorem resolveFilePath_within_iff (config : Config) (location : Location) (uriPath : Bytes) :
    (normalPath (rootOf config location)).Within
        (normalPath (resolveFilePath config location uriPath)) ↔
      Stays (rootOf config location) (belowRoot uriPath) :=
  joined_within_iff _ _

theorem getUploadFilePath_within_iff (directory filename : Bytes) :
    (normalPath directory).Within (normalPath (ServerResponse.getUploadFilePath directory filename)) ↔
      Stays directory filename :=
  joined_within_iff _ _

/-- The path of a target lies within the root that serves it exactly when the
decoded target stays there, the path of an upload within its directory exactly
when the file name stays there, and the server's own root is never left: it
only answers `/`. -/
theorem paths_within_iff (config : Config) (location : Location) (target : Bytes)
    (request : Request) (directory filename : Bytes) (autoIndex : Bool) :
    let uriPath := (parseAbsolutePath target request).2.uriPath
    let root := rootOf config location
    ((normalPath root).Within (normalPath (resolveFilePath config location uriPath)) ↔
        Stays root (belowRoot uriPath)) ∧
      (normalPath config.common.root).Within
        (normalPath (resolveFilePath config (ServerResponse.defaultLocation config autoIndex)
          (bytes "/"))) ∧
      ((normalPath directory).Within
          (normalPath (ServerResponse.getUploadFilePath directory filename)) ↔
        Stays directory filename) := by
  refine ⟨resolveFilePath_within_iff config location _, ?_,
    getUploadFilePath_within_iff directory filename⟩
  have hroot : rootOf config (ServerResponse.defaultLocation config autoIndex) =
      config.common.root := ite_self _
  have hdefault := resolveFilePath_within_iff config
    (ServerResponse.defaultLocation config autoIndex) (bytes "/")
  rw [hroot] at hdefault
  refine hdefault.mpr (staysWithin_of_ups_eq_zero _ _ _ rfl ?_)
  rw [show belowRoot (bytes "/") = [] from rfl, walk_nil]
  rfl

/-- A target that begins with one slash and never climbs is served from below
the root, whatever the root is. -/
theorem resolveFilePath_within (config : Config) (location : Location) (uriPath : Bytes)
    (hrelative : (belowRoot uriPath).head? ≠ some (byteOf '/'))
    (hclimb : (walk (byteOf '/') (byteOf '.') (belowRoot uriPath)).ups = 0) :
    (normalPath (rootOf config location)).Within
      (normalPath (resolveFilePath config location uriPath)) :=
  (resolveFilePath_within_iff config location uriPath).mpr
    (staysWithin_of_ups_eq_zero _ _ _ (by simpa [isAbsolute] using hrelative) hclimb)

/-- A target leaves the root of the location that it is matched with, also when
its dots are encoded, and a file name leaves the directory of the uploads. -/
theorem paths_leave_the_root :
    (∃ location ∈ ServerResponse.plainServer.location,
      parseAbsolutePath (bytes "/%2e%2e/x") {} =
          (.ok, { filename := bytes "x", uriPath := bytes "/../x" }) ∧
        findBestLocationMatch ServerResponse.plainServer (bytes "/../x") = some location ∧
        ¬(normalPath (rootOf ServerResponse.plainServer location)).Within
          (normalPath (resolveFilePath ServerResponse.plainServer location (bytes "/../x")))) ∧
      parseFilename (bytes "form-data; name=\"f\"; filename=\"../x\"") [] =
          (.ok, bytes "../x") ∧
        ¬(normalPath (bytes "Pages/Uploads")).Within
          (normalPath (ServerResponse.getUploadFilePath (bytes "Pages/Uploads")
            (bytes "../x"))) := by
  decide

end FortyTwo.Webserv
