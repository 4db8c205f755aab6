import FastSTDB.TimeOrder
import FastSTDB.TreeAggregate
import FastSTDB.JoinDrain
import FastSTDB.JoinAlign
import FastSTDB.Integrity
import FastSTDB.EventRange
import FastSTDB.VolumeBytes
import FastSTDB.WriteFaults
import FastSTDB.FixedStorage
import FastSTDB.ExpandableStorage
import FastSTDB.FanInDrain
import FastSTDB.SampleBound
import FastSTDB.Metadata
import FastSTDB.SeriesIds
import FastSTDB.DataRecovery
import FastSTDB.Cursor
import FastSTDB.StringPool
import FastSTDB.PostingList
import FastSTDB.ChainDrain
import FastSTDB.FieldNodes
import FastSTDB.LogFaults
